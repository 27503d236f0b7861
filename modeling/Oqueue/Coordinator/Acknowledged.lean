import Oqueue.Coordinator.ExactlyOnce

/-!
# What an acknowledgement says

A commit is answered span by span. A span answered with an offset was journaled there by
this very commit, or repeats what its producer's line holds; and what a line holds was
journaled once.
-/

namespace Oqueue

open Checked

theorem inSpanOrder_eq_some {outcomes : List (Nat × SpanOutcome)} {count : Nat}
    (numbered : (outcomes.map Prod.fst).Perm (List.range count)) {index : Nat}
    {outcome : SpanOutcome} :
    (inSpanOrder outcomes)[index]? = some outcome ↔ (index, outcome) ∈ outcomes := by
  constructor
  · intro h
    have inside : index < count := by
      have bound := (List.getElem?_eq_some_iff.mp h).1
      have := numbered.length_eq
      unfold inSpanOrder at bound
      simp only [List.length_map, List.length_insertionSort, List.length_range] at bound this
      omega
    have named : index ∈ outcomes.map Prod.fst := numbered.mem_iff.mpr (List.mem_range.mpr inside)
    obtain ⟨⟨_, other⟩, among, rfl⟩ := List.mem_map.mp named
    rw [inSpanOrder_at numbered among] at h
    cases h
    exact among
  · exact inSpanOrder_at numbered

theorem length_inSpanOrder {outcomes : List (Nat × SpanOutcome)} {count : Nat}
    (numbered : (outcomes.map Prod.fst).Perm (List.range count)) :
    (inSpanOrder outcomes).length = count := by
  have := numbered.length_eq
  unfold inSpanOrder
  simpa using this

theorem mem_recordDecision_admitted {admission : Admission} {running : RunningLines}
    {line : ProducerLine} {index : Nat} {span : CommittedSpan} {decision : Decision}
    {item : Nat × CommittedSpan}
    (h : item ∈ (recordDecision admission running line index span decision).1.admitted) :
    item ∈ admission.admitted ∨ item = (index, span) := by
  cases decision with
  | admits => exact (List.mem_append.mp h).imp_right List.mem_singleton.mp
  | replay state => exact .inl h
  | reject reason => exact .inl h

namespace Allocator

theorem admitSpans_admitted (a : Allocator) (spans : List CommittedSpan)
    {item : Nat × CommittedSpan} (h : item ∈ (a.admitSpans spans).admitted) :
    spans[item.1]? = some item.2 := by
  have collects : ∀ (rest : List (CommittedSpan × Nat)) (held : Admission × RunningLines),
      (∀ x ∈ held.1.admitted, (x.2, x.1) ∈ spans.zipIdx) → (∀ x ∈ rest, x ∈ spans.zipIdx) →
      ∀ x ∈ (rest.foldl a.admitSpan held).1.admitted, (x.2, x.1) ∈ spans.zipIdx := by
    intro rest
    induction rest with
    | nil => exact fun held admits _ => admits
    | cons item rest ih =>
      intro held admits inside
      refine ih _ ?_ fun x hx => inside x (List.mem_cons_of_mem _ hx)
      intro x hx
      have grown : x ∈ held.1.admitted ∨ x = (item.2, item.1) := by
        unfold admitSpan at hx
        split at hx
        · exact (List.mem_append.mp hx).imp_right List.mem_singleton.mp
        · exact mem_recordDecision_admitted hx
      rcases grown with before | rfl
      · exact admits x before
      · exact inside item (List.mem_cons_self ..)
  exact List.mem_zipIdx_iff_getElem?.mp (collects spans.zipIdx ({}, ∅) (by simp) (fun _ h => h) item h)

end Allocator

/-- Every state a line holds was left there by a span that was journaled. -/
def Recorded (allocator : Allocator) (journaled : List (CommittedSpan × Nat)) : Prop :=
  ∀ line state, allocator.producerState.lookup line = some state →
    (line, state) ∈ endsOf journaled

theorem lookup_evictRounds (cap rounds : Nat)
    (state : Finmap fun _ : ProducerLine => ProducerState) (recency : Recency ProducerLine)
    {line : ProducerLine} {held : ProducerState}
    (h : (Allocator.evictRounds cap rounds state recency).1.lookup line = some held) :
    state.lookup line = some held := by
  induction rounds generalizing state recency with
  | zero => exact h
  | succ rounds ih =>
    unfold Allocator.evictRounds at h
    split at h
    · exact h
    · split at h
      · exact h
      · rename_i oldest _ _
        have kept := ih _ _ h
        by_cases same : line = oldest
        · rw [same, Finmap.lookup_erase] at kept
          cases kept
        · rwa [Finmap.lookup_erase_ne same] at kept

theorem Recorded.apply {allocator : Allocator} {journaled more : List (CommittedSpan × Nat)}
    (recorded : Recorded allocator journaled) {staged : Allocator.Staged}
    (ends : ∀ e ∈ staged.producerEnds, e ∈ endsOf more) :
    Recorded (allocator.apply staged).1 (journaled ++ more) := by
  intro line state h
  have applied := congrArg Prod.fst (allocator.apply_producers staged)
  dsimp only at applied
  rw [applied] at h
  have touched := lookup_evictRounds _ _ _ _ h
  rw [lookup_touched] at touched
  rw [endsOf_append, List.mem_append]
  cases new : (statesOn line staged.producerEnds).getLast? with
  | none =>
    rw [new, Option.none_or] at touched
    exact .inl (recorded line state touched)
  | some last =>
    rw [new, Option.some_or] at touched
    cases touched
    have among := List.mem_of_getLast? new
    unfold statesOn at among
    obtain ⟨e, he, hstate⟩ := List.mem_filterMap.mp among
    split at hstate
    · rename_i same
      cases hstate
      exact .inr (ends _ (same ▸ he))
    · cases hstate

namespace CoordinatorLoop

theorem recorded_turn {self : CoordinatorLoop} {journaled : List (CommittedSpan × Nat)}
    (recorded : Recorded self.allocator journaled) (request : LoopRequest × Except Error Unit) :
    Recorded (self.turn request).allocator (journaled ++ self.journaledBy request) := by
  rcases self.turn_cases request with ⟨h, hby⟩ | ⟨object, spans, writtenAt, staged, -, hstaged, h, hby⟩ |
    ⟨record, staged, -, hstaged, h, hby⟩
  · rw [h, hby, List.append_nil]
    exact recorded
  · rw [h, hby]
    apply recorded.apply
    obtain ⟨acc, hacc, -, rfl⟩ := Allocator.stage_eq_ok.mp hstaged
    intro e he
    have ends : acc.producerEnds = endsOf (((self.allocator.admitSpans spans).admitted.map
        Prod.snd).zip (acc.assignments.map Assignment.baseOffset)) :=
      Allocator.stage_producerEnds hacc
    exact ends ▸ he
  · rw [h, hby]
    apply recorded.apply
    rw [(Allocator.stageRecord_eq_ok.mp hstaged).2]
    exact fun e he => absurd he List.not_mem_nil

theorem recorded_run (requests : List (LoopRequest × Except Error Unit)) :
    Recorded (run requests).allocator (journaledIn requests) := by
  induction requests using List.reverseRecOn with
  | nil => exact fun line state h => by cases h
  | append_singleton before request ih =>
    have whole : run (before ++ [request]) = (run before).turn request := by
      unfold run
      rw [List.foldl_append]
      rfl
    rw [whole, journaledIn_snoc]
    exact recorded_turn ih request

/-- A span answered with an offset got it from this commit, or repeats the one its line has. -/
def Acknowledged (journaled own : List (CommittedSpan × Nat)) (span : CommittedSpan)
    (base : Nat) : Prop :=
  (span, base) ∈ own ∨ ∃ earlier identity, (earlier, base) ∈ journaled ∧
    span.producer = some identity ∧ earlier.producer = some identity ∧
    earlier.key = span.key ∧ earlier.recordCount = span.recordCount

theorem Acknowledged.mono {journaled own journaled' own' : List (CommittedSpan × Nat)}
    {span : CommittedSpan} {base : Nat} (h : Acknowledged journaled own span base)
    (all : ∀ x ∈ journaled, x ∈ journaled') (mine : ∀ x ∈ own, x ∈ own') :
    Acknowledged journaled' own' span base := by
  rcases h with h | ⟨earlier, identity, among, rest⟩
  · exact .inl (mine _ h)
  · exact .inr ⟨earlier, identity, all _ among, rest⟩

/-- A span answered without being staged repeats what its line was left by a journaled span. -/
theorem answered_repeats {self : CoordinatorLoop} {journaled : List (CommittedSpan × Nat)}
    (recorded : Recorded self.allocator journaled) {spans : List CommittedSpan} {index : Nat}
    {assignment : Assignment} {span : CommittedSpan}
    (among : (index, SpanOutcome.assigned assignment) ∈ (self.allocator.admitSpans spans).answered)
    (hspan : spans[index]? = some span) (own : List (CommittedSpan × Nat)) :
    Acknowledged journaled own span assignment.baseOffset := by
  unfold Admission.answered at among
  rcases List.mem_append.mp among with among | among
  · obtain ⟨⟨_, topic, partition, _⟩, replayed, same⟩ := List.mem_map.mp among
    cases same
    obtain ⟨span', identity, state, here, hproducer, stored, hmark, hcount, hassignment⟩ :=
      self.allocator.admitSpans_replayed spans replayed
    dsimp only at here hassignment
    have hspan' := List.mem_zipIdx_iff_getElem?.mp here
    rw [hspan] at hspan'
    cases hspan'
    have ended := recorded _ _ stored
    unfold endsOf at ended
    obtain ⟨⟨earlier, base⟩, journaledAt, left⟩ := List.mem_flatMap.mp ended
    unfold Allocator.producerEnd at left
    split at left
    · cases left
    · rename_i held hearlier
      obtain ⟨⟨id, topic, partition⟩, rfl⟩ : (identity.id = held.id ∧
          span'.topic = earlier.topic ∧ span'.partition = earlier.partition) ∧ state = _ := by
        simpa [Prod.ext_iff] using List.mem_singleton.mp left
      obtain ⟨epoch, sequence⟩ := Prod.mk.inj hmark
      have sameProducer : held = identity := by
        cases held
        cases identity
        simp_all
      refine .inr ⟨earlier, identity, ?_, hproducer, sameProducer ▸ hearlier, ?_, hcount⟩
      · rw [hassignment]
        exact journaledAt
      · rw [CommittedSpan.key, CommittedSpan.key, topic, partition]
  · obtain ⟨_, _, same⟩ := List.mem_map.mp among
    cases same

/-- Every span of a commit is answered, and every offset it is answered with is its own. -/
theorem serve_answers {self loop : CoordinatorLoop} {journaled : List (CommittedSpan × Nat)}
    (recorded : Recorded self.allocator journaled) {object : ObjectKey}
    {spans : List CommittedSpan} {writtenAt : Nat} {journal : Except Error Unit} {ack : CommitAck}
    (h : self.serve object spans writtenAt journal = (loop, .ok ack)) :
    ack.outcomes.length = spans.length ∧
    ∀ (index : Nat) (assignment : Assignment) (span : CommittedSpan),
      ack.outcomes[index]? = some (.assigned assignment) → spans[index]? = some span →
      Acknowledged journaled (self.journaledBy (.commit object spans writtenAt, journal)) span
        assignment.baseOffset := by
  have positions := positions_admitSpans self.allocator spans
  unfold Admission.positions at positions
  have keys : (self.allocator.admitSpans spans).answered.map Prod.fst =
      (self.allocator.admitSpans spans).replayed.map Prod.fst ++
        (self.allocator.admitSpans spans).rejected.map Prod.fst := by
    simp [Admission.answered, Function.comp_def]
  unfold serve at h
  dsimp only at h
  split at h
  · rename_i nothing
    obtain ⟨rfl, rfl⟩ : self = loop ∧ _ = ack := by simpa using h
    have none : (self.allocator.admitSpans spans).admitted = [] := by simpa using nothing
    rw [none, List.map_nil, List.nil_append, ← keys] at positions
    refine ⟨length_inSpanOrder positions, ?_⟩
    intro index assignment span answered hspan
    exact answered_repeats recorded ((inSpanOrder_eq_some positions).mp answered) hspan _
  · rename_i something
    split at h
    · cases h
    · rename_i staged hstaged
      split at h
      · cases h
      · obtain ⟨rfl, rfl⟩ : self.taken staged = loop ∧ _ = ack := by simpa using h
        obtain ⟨acc, hacc, -, rfl⟩ := Allocator.stage_eq_ok.mp hstaged
        have lengths : acc.assignments.length = (self.allocator.admitSpans spans).admitted.length := by
          have := congrArg List.length (Allocator.stage_positional hacc)
          simpa using this
        have numbered : (((self.allocator.admitSpans spans).answered ++
            ((self.allocator.admitSpans spans).admitted.map Prod.fst).zip
              (acc.assignments.map SpanOutcome.assigned)).map Prod.fst).Perm
            (List.range spans.length) := by
          rw [List.map_append, List.map_fst_zip (by simp [lengths]), keys]
          exact List.perm_append_comm.trans positions
        refine ⟨length_inSpanOrder numbered, ?_⟩
        intro index assignment span answered hspan
        rcases List.mem_append.mp ((inSpanOrder_eq_some numbered).mp answered) with among | among
        · exact answered_repeats recorded among hspan _
        · left
          obtain ⟨nth, hnth⟩ := List.mem_iff_getElem?.mp among
          rw [List.getElem?_zip_eq_some, List.getElem?_map, List.getElem?_map,
            Option.map_eq_some_iff, Option.map_eq_some_iff] at hnth
          obtain ⟨⟨item, hitem, rfl⟩, given, hgiven, same⟩ := hnth
          cases same
          have placed := self.allocator.admitSpans_admitted spans (List.mem_of_getElem? hitem)
          rw [hspan] at placed
          cases placed
          simp only [journaledBy, hstaged, if_neg something]
          refine List.mem_iff_getElem?.mpr ⟨nth, ?_⟩
          rw [List.getElem?_zip_eq_some, List.getElem?_map, List.getElem?_map, hitem, hgiven]
          exact ⟨rfl, rfl⟩

end CoordinatorLoop

namespace Allocator

def Within (a : Allocator) (bound : Nat) : Prop := ∀ key, (a.endOffset key).getD 0 ≤ bound

def totalCount (spans : List CommittedSpan) : Nat := (spans.map CommittedSpan.recordCount).sum

/-- Spans the partitions have room for are staged, and end within what they add. -/
theorem stage_within {a : Allocator} {bound : Nat} (within : a.Within bound) (object : ObjectKey)
    {spans : List CommittedSpan} (writtenAt : Nat) (room : bound + totalCount spans ≤ i64Max)
    (versions : a.nextVersion + 1 ≤ u64Max) :
    ∃ staged, a.stage object spans writtenAt = .ok staged ∧
      staged.nextVersion = a.nextVersion + 1 ∧
      ∀ e ∈ staged.ends, e.2 ≤ bound + totalCount spans := by
  have walk : ∃ acc, spans.foldlM a.stageSpan {} = .ok acc ∧
      ∀ key stop, acc.running.lookup key = some stop → stop ≤ bound + totalCount spans := by
    induction spans using List.reverseRecOn with
    | nil => exact ⟨{}, rfl, fun key stop h => by simp at h⟩
    | append_singleton before span ih =>
      have sum : totalCount (before ++ [span]) = totalCount before + span.recordCount := by
        simp [totalCount]
      rw [sum] at room
      obtain ⟨acc, hacc, ends⟩ := ih (by omega)
      have base : a.runningEnd acc span.key ≤ bound + totalCount before := by
        unfold runningEnd
        cases held : acc.running.lookup span.key with
        | none =>
          have := within span.key
          dsimp only [Option.getD_none]
          omega
        | some stop => exact ends _ stop held
      refine ⟨_, (by rw [foldlM_snoc, hacc, bind_ok]; exact stageSpan_eq_ok.mpr ⟨by omega, rfl⟩), ?_⟩
      intro key stop h
      rw [sum]
      by_cases same : key = span.key
      · subst same
        rw [AList.lookup_insert] at h
        cases h
        omega
      · rw [AList.lookup_insert_ne same] at h
        have := ends key stop h
        omega
  obtain ⟨acc, hacc, ends⟩ := walk
  refine ⟨_, stage_eq_ok.mpr ⟨acc, hacc, versions, rfl⟩, rfl, ?_⟩
  intro e among
  obtain ⟨item, hitem, rfl⟩ := List.mem_map.mp among
  exact ends item.1 item.2 (AList.mem_lookup_iff.mpr hitem)

theorem Within.apply {a : Allocator} {bound : Nat} (within : a.Within bound) {staged : Staged}
    (ends : ∀ e ∈ staged.ends, e.2 ≤ bound) : (a.apply staged).1.Within bound := by
  have walk : ∀ (more : List (PartitionKey × Nat)) (held : Finmap fun _ : PartitionKey => Nat),
      (∀ e ∈ more, e.2 ≤ bound) → (∀ key, (held.lookup key).getD 0 ≤ bound) →
      ∀ key, ((more.foldl (fun ends e => ends.insert e.1 e.2) held).lookup key).getD 0 ≤ bound := by
    intro more
    induction more with
    | nil => exact fun held _ fine => fine
    | cons e rest ih =>
      intro held small fine
      refine ih _ (fun e' h => small e' (List.mem_cons_of_mem _ h)) ?_
      intro key
      by_cases same : key = e.1
      · subst same
        rw [Finmap.lookup_insert]
        exact small e (List.mem_cons_self ..)
      · rw [Finmap.lookup_insert_of_ne _ same]
        exact fine key
  exact walk staged.ends a.endOffsets ends within

theorem admitted_sublist (a : Allocator) (spans : List CommittedSpan) :
    ((a.admitSpans spans).admitted.map Prod.snd).Sublist spans := by
  have collects : ∀ (rest : List (CommittedSpan × Nat)) (held : Admission × RunningLines),
      ∃ more, (rest.foldl a.admitSpan held).1.admitted = held.1.admitted ++ more ∧
        (more.map Prod.snd).Sublist (rest.map Prod.fst) := by
    intro rest
    induction rest with
    | nil => exact fun held => ⟨[], (List.append_nil _).symm, .slnil⟩
    | cons item rest ih =>
      intro held
      obtain ⟨more, hmore, sub⟩ := ih (a.admitSpan held item)
      have one : (a.admitSpan held item).1.admitted = held.1.admitted ∨
          (a.admitSpan held item).1.admitted = held.1.admitted ++ [(item.2, item.1)] := by
        unfold admitSpan
        split
        · exact .inr rfl
        · dsimp only
          cases classify (a.currentLine held.2 _).1 (a.currentLine held.2 _).2 _ _ _ with
          | admits => exact .inr rfl
          | replay state => exact .inl rfl
          | reject reason => exact .inl rfl
      rcases one with kept | grown
      · exact ⟨more, by rw [List.foldl_cons, hmore, kept], sub.cons _⟩
      · exact ⟨(item.2, item.1) :: more, by rw [List.foldl_cons, hmore, grown]; simp,
          sub.cons_cons _⟩
  obtain ⟨more, hmore, sub⟩ := collects spans.zipIdx ({}, ∅)
  rw [List.zipIdx_map_fst] at sub
  unfold admitSpans
  rw [hmore]
  exact sub

end Allocator

namespace CoordinatorLoop

/-- With room for all of it, a commit the journal takes is answered with an acknowledgement. -/
theorem serve_within {self : CoordinatorLoop} {bound : Nat} (within : self.allocator.Within bound)
    (object : ObjectKey) {spans : List CommittedSpan} (writtenAt : Nat)
    (room : bound + Allocator.totalCount spans ≤ i64Max)
    (versions : self.allocator.nextVersion + 1 ≤ u64Max) :
    ∃ loop ack, self.serve object spans writtenAt (.ok ()) = (loop, .ok ack) ∧
      loop.allocator.Within (bound + Allocator.totalCount spans) ∧
      loop.allocator.nextVersion ≤ self.allocator.nextVersion + 1 := by
  have fewer : Allocator.totalCount ((self.allocator.admitSpans spans).admitted.map Prod.snd) ≤
      Allocator.totalCount spans :=
    ((self.allocator.admitted_sublist spans).map CommittedSpan.recordCount).sum_le_sum
      fun _ _ => Nat.zero_le _
  obtain ⟨staged, hstaged, version, ends⟩ := self.allocator.stage_within within object writtenAt
    (show bound + Allocator.totalCount ((self.allocator.admitSpans spans).admitted.map Prod.snd) ≤
      i64Max by omega) versions
  unfold serve
  dsimp only
  split
  · exact ⟨_, _, rfl, fun key => (within key).trans (Nat.le_add_right ..), Nat.le_succ _⟩
  · rw [hstaged]
    refine ⟨_, _, rfl, ?_, Nat.le_of_eq version⟩
    exact Allocator.Within.apply (fun key => (within key).trans (Nat.le_add_right ..))
      fun e h => (ends e h).trans (by omega)

end CoordinatorLoop

end Oqueue
