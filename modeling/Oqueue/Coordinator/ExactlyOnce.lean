import Oqueue.Coordinator.Lines

/-!
# Idempotent produce is exactly once

While no line is evicted, the allocator holds the last journaled state of every
line, and what was journaled on a line is a chain. So a sequence is journaled
twice only around a wrap, and a duplicate is answered with the offset of the
span it repeats.
-/

namespace Oqueue

open Checked

namespace Admission

def positions (self : Admission) : List Nat :=
  self.admitted.map Prod.fst ++ (self.replayed.map Prod.fst ++ self.rejected.map Prod.fst)

end Admission

theorem positions_recordDecision (admission : Admission) (running : RunningLines)
    (line : ProducerLine) (index : Nat) (span : CommittedSpan) (decision : Decision) :
    (recordDecision admission running line index span decision).1.positions.Perm
      (admission.positions ++ [index]) := by
  unfold Admission.positions
  cases decision with
  | admits =>
    simp only [recordDecision, List.map_append, List.map_cons, List.map_nil, List.append_assoc]
    rw [← List.append_assoc (admission.replayed.map Prod.fst)]
    exact List.perm_append_comm.append_left _
  | replay state =>
    simp only [recordDecision, List.map_append, List.map_cons, List.map_nil, List.append_assoc]
    exact (List.perm_append_comm.append_left _).append_left _
  | reject reason =>
    simp only [recordDecision, List.map_append, List.map_cons, List.map_nil, List.append_assoc]
    exact List.Perm.refl _

theorem positions_admitSpans (a : Allocator) (spans : List CommittedSpan) :
    (a.admitSpans spans).positions.Perm (List.range spans.length) := by
  have answered : ∀ (items : List (CommittedSpan × Nat)) (held : Admission × RunningLines),
      (items.foldl a.admitSpan held).1.positions.Perm
        (held.1.positions ++ items.map Prod.snd) := by
    intro items
    induction items with
    | nil => intro held; simp
    | cons item rest ih =>
      intro held
      have one : (a.admitSpan held item).1.positions.Perm (held.1.positions ++ [item.2]) := by
        unfold Allocator.admitSpan
        split
        · exact positions_recordDecision held.1 held.2 (0, item.1.topic, 0) item.2 item.1 .admits
        · exact positions_recordDecision ..
      rw [List.foldl_cons, List.map_cons]
      refine (ih _).trans ?_
      have := one.append_right (rest.map Prod.snd)
      rwa [List.append_assoc, List.singleton_append] at this
  have all := answered spans.zipIdx ({}, ∅)
  rw [List.zipIdx_map_snd, ← List.range_eq_range'] at all
  exact all

/-- Outcomes numbered like the spans come out in the spans' order. -/
theorem inSpanOrder_at {outcomes : List (Nat × SpanOutcome)} {count : Nat}
    (numbered : (outcomes.map Prod.fst).Perm (List.range count)) {index : Nat}
    {outcome : SpanOutcome} (h : (index, outcome) ∈ outcomes) :
    (inSpanOrder outcomes)[index]? = some outcome := by
  unfold inSpanOrder
  generalize hsorted : outcomes.insertionSort (fun a b => a.1 ≤ b.1) = sorted
  have perm : sorted.Perm outcomes := hsorted ▸ List.perm_insertionSort _ _
  have order : sorted.Pairwise fun a b => a.1 ≤ b.1 :=
    hsorted ▸ List.pairwise_insertionSort _ _
  have keys : sorted.map Prod.fst = List.range count :=
    List.Perm.eq_of_pairwise' (List.pairwise_map.mpr order) List.pairwise_le_range
      ((perm.map Prod.fst).trans numbered)
  obtain ⟨position, hposition⟩ := List.mem_iff_getElem?.mp (perm.mem_iff.mpr h)
  have here : (List.range count)[position]? = some index := by
    rw [← keys, List.getElem?_map, hposition]
    rfl
  obtain ⟨inside, hindex⟩ := List.getElem?_eq_some_iff.mp here
  rw [List.getElem_range] at hindex
  rw [← hindex, List.getElem?_map, hposition]
  rfl

/-- The states the journaled spans left on their lines, oldest first. -/
def endsOf (journaled : List (CommittedSpan × Nat)) : List (ProducerLine × ProducerState) :=
  journaled.flatMap fun item => Allocator.producerEnd item.1 item.2

theorem endsOf_append (xs ys : List (CommittedSpan × Nat)) :
    endsOf (xs ++ ys) = endsOf xs ++ endsOf ys := List.flatMap_append

/-- The marks some journaled spans left on one line. -/
def marksOn (line : ProducerLine) (journaled : List (CommittedSpan × Nat)) : List Mark :=
  (statesOn line (endsOf journaled)).map ProducerState.mark

theorem marksOn_append (line : ProducerLine) (xs ys : List (CommittedSpan × Nat)) :
    marksOn line (xs ++ ys) = marksOn line xs ++ marksOn line ys := by
  unfold marksOn
  rw [endsOf_append, statesOn_append, List.map_append]

/-- The offsets spans were given do not show in their marks. -/
theorem marksOn_zip (line : ProducerLine) {admitted : List (Nat × CommittedSpan)}
    {bases : List Nat} (lengths : admitted.length = bases.length) :
    marksOn line ((admitted.map Prod.snd).zip bases) =
      (statesOn line (provisionals admitted)).map ProducerState.mark := by
  induction admitted generalizing bases with
  | nil => rfl
  | cons item rest ih =>
    cases bases with
    | nil => simp at lengths
    | cons base bases =>
      have tail := ih (Nat.succ.inj lengths)
      have front : marksOn line [(item.2, base)] =
          (statesOn line (provisionals [item])).map ProducerState.mark := by
        cases hproducer : item.2.producer with
        | none => simp [marksOn, endsOf, provisionals, statesOn, Allocator.producerEnd, hproducer]
        | some identity =>
          by_cases same : (identity.id, item.2.topic, item.2.partition) = line <;>
            simp [marksOn, endsOf, provisionals, statesOn, Allocator.producerEnd, hproducer, same,
              ProducerState.mark]
      have split : ((item :: rest).map Prod.snd).zip (base :: bases) =
          [(item.2, base)] ++ (rest.map Prod.snd).zip bases := rfl
      have whole : provisionals (item :: rest) = provisionals [item] ++ provisionals rest :=
        provisionals_append [item] rest
      rw [split, marksOn_append, front, tail, whole, statesOn_append, List.map_append]

def Carries (line : ProducerLine) (mark : Mark) (span : CommittedSpan) : Prop :=
  ∃ identity, span.producer = some identity ∧ (identity.id, span.topic, span.partition) = line ∧
    (identity.epoch, identity.sequence) = mark

theorem Carries.statesOn {line : ProducerLine} {mark : Mark} {item : CommittedSpan × Nat}
    (h : Carries line mark item.1) :
    statesOn line (endsOf [item]) = [⟨mark.1, mark.2, item.2, item.1.recordCount⟩] := by
  obtain ⟨identity, hproducer, rfl, rfl⟩ := h
  simp [Oqueue.statesOn, endsOf, Allocator.producerEnd, hproducer]

theorem Carries.marksOn {line : ProducerLine} {mark : Mark} {item : CommittedSpan × Nat}
    (h : Carries line mark item.1) : marksOn line [item] = [mark] := by
  unfold Oqueue.marksOn
  rw [h.statesOn]
  rfl

theorem statesOn_off_line {line : ProducerLine} {item : CommittedSpan × Nat}
    (h : ∀ mark, ¬ Carries line mark item.1) : statesOn line (endsOf [item]) = [] := by
  cases hproducer : item.1.producer with
  | none => simp [statesOn, endsOf, Allocator.producerEnd, hproducer]
  | some identity =>
    have other : (identity.id, item.1.topic, item.1.partition) ≠ line :=
      fun same => h _ ⟨identity, hproducer, same, rfl⟩
    simp [statesOn, endsOf, Allocator.producerEnd, hproducer, other]

/-- The last state of a line was left by the last span on it. -/
theorem exists_last_on_line {line : ProducerLine} {state : ProducerState}
    {journaled : List (CommittedSpan × Nat)}
    (h : (statesOn line (endsOf journaled)).getLast? = some state) :
    ∃ before item after, journaled = before ++ item :: after ∧
      Carries line state.mark item.1 ∧ item.2 = state.baseOffset ∧
      item.1.recordCount = state.recordCount ∧ ∀ later ∈ after, ∀ mark, ¬ Carries line mark later.1 := by
  induction journaled using List.reverseRecOn with
  | nil => cases h
  | append_singleton before item ih =>
    rw [endsOf_append, statesOn_append, List.getLast?_append] at h
    by_cases on : ∃ mark, Carries line mark item.1
    · obtain ⟨mark, carries⟩ := on
      rw [carries.statesOn] at h
      obtain rfl : _ = state := Option.some.inj h
      exact ⟨before, item, [], rfl, carries, rfl, rfl, fun _ hlater => by cases hlater⟩
    · have off : ∀ mark, ¬ Carries line mark item.1 := fun mark carries => on ⟨mark, carries⟩
      rw [statesOn_off_line off] at h
      obtain ⟨front, x, after, rfl, carries, hbase, hcount, quiet⟩ := ih h
      refine ⟨front, x, after ++ [item], by simp, carries, hbase, hcount, ?_⟩
      intro later hlater
      rcases List.mem_append.mp hlater with hlater | hlater
      · exact quiet later hlater
      · rw [List.mem_singleton.mp hlater]
        exact off

theorem lookup_touched (a : Allocator) (ends : List (ProducerLine × ProducerState))
    (line : ProducerLine) :
    (a.touched ends).1.lookup line =
      (statesOn line ends).getLast?.or (a.producerState.lookup line) := by
  have walk : ∀ held : (Finmap fun _ : ProducerLine => ProducerState) × Recency ProducerLine,
      (ends.foldl (fun held e => (held.1.insert e.1 e.2, held.2.touch e.1)) held).1.lookup line =
        (statesOn line ends).getLast?.or (held.1.lookup line) := by
    induction ends with
    | nil => intro held; rfl
    | cons e rest ih =>
      intro held
      rw [List.foldl_cons, ih, Table.lookup_insert_eq]
      unfold statesOn
      by_cases same : e.1 = line
      · rw [List.filterMap_cons_some (by rw [if_pos same]), List.getLast?_cons]
        cases (rest.filterMap fun e => if e.1 = line then some e.2 else none).getLast? <;>
          simp [same]
      · rw [List.filterMap_cons_none (by rw [if_neg same]), if_neg (Ne.symm same)]
  exact walk _

namespace CoordinatorLoop

/-- What a run has journaled so far, in order. -/
def journaledIn (requests : List (LoopRequest × Except Error Unit)) : List (CommittedSpan × Nat) :=
  (requests.foldl (fun (held : CoordinatorLoop × List (CommittedSpan × Nat)) request =>
    (held.1.turn request, held.2 ++ held.1.journaledBy request)) ({}, [])).2

theorem journaledIn_snoc (requests : List (LoopRequest × Except Error Unit))
    (request : LoopRequest × Except Error Unit) :
    journaledIn (requests ++ [request]) =
      journaledIn requests ++ (run requests).journaledBy request := by
  have loops : ∀ held : CoordinatorLoop × List (CommittedSpan × Nat),
      (requests.foldl (fun (held : CoordinatorLoop × List (CommittedSpan × Nat)) request =>
        (held.1.turn request, held.2 ++ held.1.journaledBy request)) held).1 =
        requests.foldl turn held.1 := by
    induction requests with
    | nil => intro held; rfl
    | cons r rest ih => intro held; exact ih _
  unfold journaledIn
  rw [List.foldl_append, List.foldl_cons, List.foldl_nil]
  dsimp only
  rw [loops]
  rfl

/-- Fewer producer lines than the cap are live at every point of a run. -/
def FewLines (requests : List (LoopRequest × Except Error Unit)) : Prop :=
  ∀ n, (run (requests.take n)).allocator.producerState.keys.card < maxTrackedProducers

/-- The allocator holds every line's last journaled state, and every line is a chain. -/
structure Traces (loop : CoordinatorLoop) (journaled : List (CommittedSpan × Nat)) : Prop where
  stored : ∀ line, loop.allocator.producerState.lookup line =
    (statesOn line (endsOf journaled)).getLast?
  chained : ∀ line, Chained none (marksOn line journaled)

theorem Traces.marks {loop : CoordinatorLoop} {journaled : List (CommittedSpan × Nat)}
    (traces : loop.Traces journaled) (line : ProducerLine) :
    (loop.allocator.producerState.lookup line).map ProducerState.mark =
      lastMark none (marksOn line journaled) := by
  unfold lastMark marksOn
  rw [traces.stored, List.getLast?_map, Option.or_none]

theorem Traces.turn {loop : CoordinatorLoop} {journaled : List (CommittedSpan × Nat)}
    (traces : loop.Traces journaled) (live : loop.Live)
    {request : LoopRequest × Except Error Unit}
    (few : (loop.turn request).allocator.producerState.keys.card < maxTrackedProducers) :
    (loop.turn request).Traces (journaled ++ loop.journaledBy request) := by
  obtain ⟨h, hby⟩ | ⟨object, spans, writtenAt, staged, -, hstaged, h, hby⟩ |
    ⟨record, staged, -, hstaged, h, hby⟩ := loop.turn_cases request
  · rw [h, hby, List.append_nil]
    exact traces
  · rw [h] at few ⊢
    rw [hby]
    have tracked := @Allocator.Tracked.foldl_touch staged.producerEnds
      (loop.allocator.producerState, loop.allocator.producerRecency) live.bounded.tracked
    have now : (loop.allocator.apply staged).1.producerState =
        (loop.allocator.touched staged.producerEnds).1 :=
      congrArg Prod.fst ((loop.allocator.apply_producers staged).trans
        (tracked.evictOverCap_eq_of_lt few))
    obtain ⟨acc, hacc, -, rfl⟩ := Allocator.stage_eq_ok.mp hstaged
    have lengths : (loop.allocator.admitSpans spans).admitted.length =
        (acc.assignments.map Assignment.baseOffset).length := by
      have := congrArg List.length (Allocator.stage_positional hacc)
      simpa using this.symm
    have ends : acc.producerEnds = endsOf (((loop.allocator.admitSpans spans).admitted.map Prod.snd).zip
        (acc.assignments.map Assignment.baseOffset)) := Allocator.stage_producerEnds hacc
    refine ⟨?_, ?_⟩
    · intro line
      unfold taken
      rw [now, lookup_touched, traces.stored, endsOf_append, statesOn_append,
        List.getLast?_append, ends]
    · intro line
      rw [marksOn_append, chained_append, ← traces.marks line, marksOn_zip line lengths]
      exact ⟨traces.chained line, loop.allocator.admitSpans_chained spans line⟩
  · rw [h, hby, List.append_nil]
    have same := live.bounded.apply_record hstaged
    refine ⟨?_, traces.chained⟩
    intro line
    unfold taken
    dsimp only
    rw [same]
    exact traces.stored line

theorem FewLines.earlier {requests : List (LoopRequest × Except Error Unit)}
    {request : LoopRequest × Except Error Unit} (few : FewLines (requests ++ [request])) :
    FewLines requests := by
  intro n
  by_cases inside : n ≤ requests.length
  · have := few n
    rwa [List.take_append_of_le_length inside] at this
  · have := few requests.length
    rw [List.take_append_of_le_length (Nat.le_refl _), List.take_length] at this
    rwa [List.take_of_length_le (by omega)]

theorem Traces.run {requests : List (LoopRequest × Except Error Unit)} (few : FewLines requests) :
    (run requests).Traces (journaledIn requests) := by
  induction requests using List.reverseRecOn with
  | nil => exact ⟨fun _ => rfl, fun _ => trivial⟩
  | append_singleton before request ih =>
    have whole : CoordinatorLoop.run (before ++ [request]) =
        (CoordinatorLoop.run before).turn request := by
      unfold CoordinatorLoop.run
      rw [List.foldl_append]
      rfl
    have last := few (before ++ [request]).length
    rw [List.take_length, whole] at last
    rw [journaledIn_snoc, whole]
    exact (ih few.earlier).turn (Live.run before) last

theorem Traces.wraps {loop : CoordinatorLoop} {journaled : List (CommittedSpan × Nat)}
    (traces : loop.Traces journaled) {line : ProducerLine} {mark : Mark}
    {before between after : List (CommittedSpan × Nat)} {x y : CommittedSpan × Nat}
    (h : journaled = before ++ ([x] ++ (between ++ ([y] ++ after))))
    (first : Carries line mark x.1) (second : Carries line mark y.1) :
    Wraps mark.1 (marksOn line ([x] ++ (between ++ [y]))) := by
  have chained := traces.chained line
  simp only [h, marksOn_append, chained_append, first.marksOn, second.marksOn] at chained
  obtain ⟨-, -, onBetween, onSecond, -⟩ := chained
  have around : Chained (some mark) (marksOn line between ++ [mark]) :=
    chained_append.mpr ⟨onBetween, onSecond⟩
  have shape : marksOn line ([x] ++ (between ++ [y])) = mark :: (marksOn line between ++ [mark]) := by
    rw [marksOn_append, marksOn_append, first.marksOn, second.marksOn]
    rfl
  rw [shape]
  rcases around.wraps_or_lt rfl with wrap | ahead
  · exact wrap
  · omega

/-- What `serve` acknowledges for a replayed span is the replayed assignment. -/
theorem serve_replayed {self loop : CoordinatorLoop} {object : ObjectKey}
    {spans : List CommittedSpan} {writtenAt : Nat} {journal : Except Error Unit} {ack : CommitAck}
    (h : self.serve object spans writtenAt journal = (loop, .ok ack))
    {index : Nat} {topic : TopicId} {partition : Nat} {assignment : Assignment}
    (replayed : (index, topic, partition, assignment) ∈ (self.allocator.admitSpans spans).replayed) :
    ack.outcomes[index]? = some (.assigned assignment) := by
  have positions := positions_admitSpans self.allocator spans
  unfold Admission.positions at positions
  have answered : (index, SpanOutcome.assigned assignment) ∈
      (self.allocator.admitSpans spans).answered :=
    List.mem_append_left _ (List.mem_map.mpr ⟨_, replayed, rfl⟩)
  have keys : (self.allocator.admitSpans spans).answered.map Prod.fst =
      (self.allocator.admitSpans spans).replayed.map Prod.fst ++
        (self.allocator.admitSpans spans).rejected.map Prod.fst := by
    simp [Admission.answered, Function.comp_def]
  unfold serve at h
  dsimp only at h
  split at h
  · rename_i nothing
    obtain ⟨rfl, rfl⟩ : self = loop ∧ _ = ack := by simpa using h
    have none : (self.allocator.admitSpans spans).admitted = [] := by
      simpa using nothing
    rw [none, List.map_nil, List.nil_append, ← keys] at positions
    exact inSpanOrder_at positions answered
  · split at h
    · cases h
    · rename_i staged hstaged
      split at h
      · cases h
      · obtain ⟨rfl, rfl⟩ : self.taken staged = loop ∧ _ = ack := by simpa using h
        refine @inSpanOrder_at _ spans.length ?_ _ _ (List.mem_append_left _ answered)
        obtain ⟨acc, hacc, -, rfl⟩ := Allocator.stage_eq_ok.mp hstaged
        have lengths : acc.assignments.length = (self.allocator.admitSpans spans).admitted.length := by
          have := congrArg List.length (Allocator.stage_positional hacc)
          simpa using this
        rw [List.map_append, List.map_fst_zip (by simp [lengths]), keys]
        exact List.perm_append_comm.trans positions

/-- Over whole runs, with fewer lines than the cap live: a sequence is journaled
once a wrap, and a duplicate is answered with the offset it was journaled at. -/
theorem journaled_exactly_once {requests : List (LoopRequest × Except Error Unit)}
    (few : FewLines requests) :
    (∀ line mark before x between y after,
      journaledIn requests = before ++ ([x] ++ (between ++ ([y] ++ after))) →
      Carries line mark x.1 → Carries line mark y.1 →
      Wraps mark.1 (marksOn line ([x] ++ (between ++ [y])))) ∧
    (∀ object spans writtenAt journal loop ack index topic partition assignment,
      (run requests).serve object spans writtenAt journal = (loop, .ok ack) →
      (index, topic, partition, assignment) ∈ ((run requests).allocator.admitSpans spans).replayed →
      ∃ span line mark before x after, spans[index]? = some span ∧ Carries line mark span ∧
        ack.outcomes[index]? = some (.assigned assignment) ∧
        assignment.key = span.key ∧ assignment.recordCount = span.recordCount ∧
        journaledIn requests = before ++ x :: after ∧ Carries line mark x.1 ∧
        (∀ later ∈ after, ∀ mark, ¬ Carries line mark later.1) ∧
        assignment.baseOffset = x.2 ∧ assignment.recordCount = x.1.recordCount) := by
  have traces := Traces.run few
  refine ⟨?_, ?_⟩
  · intro line mark before x between y after h first second
    exact traces.wraps h first second
  · intro object spans writtenAt journal loop ack index topic partition assignment hserve replayed
    obtain ⟨span, identity, state, hspan, hproducer, stored, hmark, hcount, hassignment⟩ :=
      (run requests).allocator.admitSpans_replayed spans replayed
    rw [traces.stored] at stored
    obtain ⟨before, x, after, hjournaled, carries, hbase, hrecords, quiet⟩ :=
      exists_last_on_line stored
    dsimp only at hassignment
    subst hassignment
    refine ⟨span, _, _, before, x, after, ?_, ⟨identity, hproducer, rfl, rfl⟩,
      serve_replayed hserve replayed, rfl, hcount, hjournaled, ?_, quiet, hbase.symm, hrecords.symm⟩
    · exact List.mem_zipIdx_iff_getElem?.mp hspan
    · rwa [← hmark]

/-- Two batches of one producer, the second refused by the journal the first time. -/
def retriedProduce : List (LoopRequest × Except Error Unit) :=
  let first : CommittedSpan := ⟨⟨"t"⟩, 0, 2, .full, some ⟨7, 0, 0⟩⟩
  let second : CommittedSpan := ⟨⟨"t"⟩, 0, 3, .full, some ⟨7, 0, 1⟩⟩
  [(.commit ⟨"a"⟩ [first] 5, .ok ()), (.commit ⟨"b"⟩ [second] 6, .error .transient),
    (.commit ⟨"c"⟩ [first, second] 7, .ok ())]

theorem journaled_exactly_once_retriedProduce : FewLines retriedProduce ∧
    ∃ before x after, journaledIn retriedProduce = before ++ x :: after ∧
      Carries (7, ⟨"t"⟩, 0) (0, 1) x.1 ∧ x.2 = 2 := by
  have few : FewLines retriedProduce := by
    have last : (run retriedProduce).allocator.producerState.keys.card < maxTrackedProducers := by
      decide
    intro n
    match n with
    | 0 => decide
    | 1 => decide
    | 2 => decide
    | n + 3 =>
      have all : retriedProduce.take (n + 3) = retriedProduce :=
        List.take_of_length_le (Nat.le_add_left 3 n)
      rw [all]
      exact last
  refine ⟨few, ?_⟩
  obtain ⟨span, line, mark, before, x, after, hspan, hsame, -, -, -, hjournaled, hcarries, -, hbase,
    -⟩ := (journaled_exactly_once few).2 ⟨"d"⟩ [⟨⟨"t"⟩, 0, 3, .full, some ⟨7, 0, 1⟩⟩] 8 (.ok ()) _ _ 0
      ⟨"t"⟩ 0 ⟨⟨"t"⟩, 0, 2, 3⟩ rfl (by decide)
  cases hspan
  obtain ⟨identity, hproducer, rfl, rfl⟩ := hsame
  cases hproducer
  exact ⟨before, x, after, hjournaled, hcarries, hbase.symm⟩

end CoordinatorLoop

end Oqueue
