import Oqueue.Coordinator.Serve

/-!
# The line a producer's sequences follow

What admission lets through on one line is a chain: it starts at zero, each next
sequence follows the one before, and a higher epoch starts over. Two equal
sequences of one epoch can only stand in such a chain with a wrap between them.
-/

namespace Oqueue

abbrev Mark := Nat × Int

def ProducerState.mark (state : ProducerState) : Mark := (state.epoch, state.sequence)

/-- Whether a mark may come right after what a line holds. -/
def Follows : Option Mark → Mark → Prop
  | none, next => next.2 = 0
  | some prev, next => (prev.1 < next.1 ∧ next.2 = 0) ∨
      (prev.1 = next.1 ∧ next.2 = nextSequence prev.2)

def Chained : Option Mark → List Mark → Prop
  | _, [] => True
  | prev, mark :: rest => Follows prev mark ∧ Chained (some mark) rest

def lastMark (prev : Option Mark) (marks : List Mark) : Option Mark := marks.getLast?.or prev

@[simp] theorem lastMark_nil (prev : Option Mark) : lastMark prev [] = prev := rfl

theorem lastMark_cons (prev : Option Mark) (mark : Mark) (rest : List Mark) :
    lastMark prev (mark :: rest) = lastMark (some mark) rest := by
  unfold lastMark
  rw [List.getLast?_cons]
  cases rest.getLast? <;> rfl

theorem chained_append {prev : Option Mark} {xs ys : List Mark} :
    Chained prev (xs ++ ys) ↔ Chained prev xs ∧ Chained (lastMark prev xs) ys := by
  induction xs generalizing prev with
  | nil => simp [Chained]
  | cons x xs ih => simp only [List.cons_append, Chained, ih, lastMark_cons, and_assoc]

theorem Chained.epoch_le {mark last : Mark} {between : List Mark}
    (h : Chained (some mark) (between ++ [last])) : mark.1 ≤ last.1 := by
  induction between generalizing mark with
  | nil =>
    rcases h.1 with ⟨up, -⟩ | ⟨same, -⟩
    · exact Nat.le_of_lt up
    · exact Nat.le_of_eq same
  | cons next rest ih =>
    have onward := ih h.2
    rcases h.1 with ⟨up, -⟩ | ⟨same, -⟩ <;> omega

/-- Somewhere in these marks of one epoch the sequence went from its maximum back to zero. -/
def Wraps (epoch : Nat) (marks : List Mark) : Prop :=
  ∃ before after, marks = before ++ (epoch, i32Max) :: (epoch, 0) :: after

theorem Wraps.cons {epoch : Nat} {marks : List Mark} (h : Wraps epoch marks) (mark : Mark) :
    Wraps epoch (mark :: marks) := by
  obtain ⟨before, after, rfl⟩ := h
  exact ⟨mark :: before, after, rfl⟩

theorem Follows.wraps_or_succ {mark next : Mark} (h : Follows (some mark) next)
    (same : mark.1 = next.1) (rest : List Mark) :
    Wraps mark.1 (mark :: next :: rest) ∨ next.2 = mark.2 + 1 := by
  rcases h with ⟨up, -⟩ | ⟨-, hnext⟩
  · omega
  · unfold nextSequence at hnext
    split at hnext
    · rename_i top
      refine .inl ⟨[], rest, ?_⟩
      obtain ⟨epoch, sequence⟩ := mark
      obtain ⟨epoch', sequence'⟩ := next
      simp_all
    · exact .inr hnext

theorem Chained.wraps_or_lt {mark last : Mark} {between : List Mark}
    (h : Chained (some mark) (between ++ [last])) (same : mark.1 = last.1) :
    Wraps mark.1 (mark :: (between ++ [last])) ∨ mark.2 < last.2 := by
  induction between generalizing mark with
  | nil =>
    rcases h.1.wraps_or_succ same [] with wrap | ahead
    · exact .inl wrap
    · exact .inr (by omega)
  | cons next rest ih =>
    have onward := h.2.epoch_le
    have sameNext : mark.1 = next.1 := by
      rcases h.1 with ⟨up, -⟩ | ⟨eq, -⟩ <;> omega
    rcases h.1.wraps_or_succ sameNext (rest ++ [last]) with wrap | ahead
    · exact .inl wrap
    · rcases ih h.2 (sameNext.symm.trans same) with wrap | further
      · exact .inl (sameNext ▸ wrap.cons mark)
      · exact .inr (by omega)

/-- The states some assigned spans leave on one line, oldest first. -/
def statesOn (line : ProducerLine) (ends : List (ProducerLine × ProducerState)) :
    List ProducerState :=
  ends.filterMap fun e => if e.1 = line then some e.2 else none

theorem statesOn_append (line : ProducerLine) (xs ys : List (ProducerLine × ProducerState)) :
    statesOn line (xs ++ ys) = statesOn line xs ++ statesOn line ys :=
  List.filterMap_append

theorem classify_eq_admits {current : Option ProducerState} {provisional : Bool} {sequence : Int}
    {epoch recordCount : Nat} :
    classify current provisional sequence epoch recordCount = .admits ↔
      Follows (current.map ProducerState.mark) (epoch, sequence) := by
  cases current with
  | none =>
    unfold classify Follows
    split <;> simp_all
  | some state =>
    simp only [classify, Option.map_some, Follows, ProducerState.mark]
    by_cases stale : epoch < state.epoch
    · rw [if_pos stale]
      simp
      omega
    · rw [if_neg stale]
      by_cases bump : state.epoch < epoch
      · rw [if_pos bump]
        split <;> simp_all
        omega
      · rw [if_neg bump]
        have same : state.epoch = epoch := by omega
        by_cases next : sequence = nextSequence state.sequence
        · simp [next, same]
        · rw [if_neg next]
          simp only [next, and_false, or_false]
          split
          · split <;> simp <;> omega
          · simp
            omega

/-- A replay is answered only from a settled state of the same epoch and sequence. -/
theorem classify_eq_replay {current : Option ProducerState} {provisional : Bool} {sequence : Int}
    {epoch recordCount : Nat} {state : ProducerState}
    (h : classify current provisional sequence epoch recordCount = .replay state) :
    current = some state ∧ provisional = false ∧ state.mark = (epoch, sequence) ∧
      state.recordCount = recordCount := by
  cases current with
  | none =>
    simp only [classify] at h
    split at h <;> cases h
  | some held =>
    simp only [classify] at h
    split at h
    · cases h
    · split at h
      · split at h <;> cases h
      · split at h
        · cases h
        · split at h
          · rename_i stale bump next settled
            split at h
            · rename_i counts
              cases h
              simp only [Bool.and_eq_true, Bool.not_eq_true', decide_eq_true_eq] at settled
              refine ⟨rfl, settled.1, ?_, counts.symm⟩
              unfold ProducerState.mark
              rw [settled.2]
              congr 1
              omega
            · cases h
          · cases h

/-- What the spans admitted so far would leave on every line. -/
def provisionals (admitted : List (Nat × CommittedSpan)) : List (ProducerLine × ProducerState) :=
  admitted.flatMap fun item => Allocator.producerEnd item.2 0

theorem provisionals_append (xs ys : List (Nat × CommittedSpan)) :
    provisionals (xs ++ ys) = provisionals xs ++ provisionals ys := List.flatMap_append

namespace Allocator

/-- What the admission loop keeps: the running map is the last admitted state of
each line, and what was admitted on a line continues what the line holds. -/
structure Admits (a : Allocator) (held : Admission × RunningLines) : Prop where
  running : ∀ line, held.2.lookup line = (statesOn line (provisionals held.1.admitted)).getLast?
  chained : ∀ line, Chained ((a.producerState.lookup line).map ProducerState.mark)
    ((statesOn line (provisionals held.1.admitted)).map ProducerState.mark)

theorem Admits.initial (a : Allocator) : a.Admits ({}, ∅) where
  running := fun _ => rfl
  chained := fun _ => trivial

theorem Admits.current {a : Allocator} {held : Admission × RunningLines} (admits : a.Admits held)
    (line : ProducerLine) : (a.currentLine held.2 line).1.map ProducerState.mark =
      lastMark ((a.producerState.lookup line).map ProducerState.mark)
        ((statesOn line (provisionals held.1.admitted)).map ProducerState.mark) := by
  unfold currentLine lastMark
  rw [List.getLast?_map, ← admits.running line]
  cases held.2.lookup line <;> rfl

theorem Admits.admitSpan {a : Allocator} {held : Admission × RunningLines} (admits : a.Admits held)
    (item : CommittedSpan × Nat) : a.Admits (a.admitSpan held item) := by
  unfold Allocator.admitSpan
  cases hproducer : item.1.producer with
  | none =>
    have nothing : provisionals (held.1.admitted ++ [(item.2, item.1)]) =
        provisionals held.1.admitted := by
      simp [provisionals, producerEnd, hproducer]
    exact ⟨fun line => by dsimp only; rw [nothing]; exact admits.running line,
      fun line => by dsimp only; rw [nothing]; exact admits.chained line⟩
  | some identity =>
    dsimp only
    generalize hline : (identity.id, item.1.topic, item.1.partition) = line
    have current := admits.current line
    cases hdecision : classify (a.currentLine held.2 line).1 (a.currentLine held.2 line).2
        identity.sequence identity.epoch item.1.recordCount with
    | replay state => exact ⟨admits.running, admits.chained⟩
    | reject reason => exact ⟨admits.running, admits.chained⟩
    | admits =>
      have follows := classify_eq_admits.mp hdecision
      rw [current] at follows
      have grown : provisionals (held.1.admitted ++ [(item.2, item.1)]) =
          provisionals held.1.admitted ++ [(line,
            .provisional identity.epoch identity.sequence item.1.recordCount)] := by
        rw [provisionals_append, ← hline]
        simp [provisionals, producerEnd, hproducer, ProducerState.provisional]
      simp only [recordDecision, hproducer]
      refine ⟨?_, ?_⟩
      · intro line'
        dsimp only
        rw [grown, statesOn_append, Table.lookup_insert_eq]
        by_cases same : line' = line
        · simp [statesOn, same]
        · simpa [statesOn, same, Ne.symm same] using admits.running line'
      · intro line'
        dsimp only
        rw [grown, statesOn_append, List.map_append, chained_append]
        refine ⟨admits.chained line', ?_⟩
        by_cases same : line' = line
        · subst same
          simpa [statesOn, Chained, ProducerState.mark, ProducerState.provisional] using follows
        · simp [statesOn, Ne.symm same, Chained]

theorem Admits.foldl {a : Allocator} (items : List (CommittedSpan × Nat))
    {held : Admission × RunningLines} (admits : a.Admits held) :
    a.Admits (items.foldl a.admitSpan held) := by
  induction items generalizing held with
  | nil => exact admits
  | cons item rest ih => exact ih (admits.admitSpan item)

theorem admitSpans_chained (a : Allocator) (spans : List CommittedSpan) (line : ProducerLine) :
    Chained ((a.producerState.lookup line).map ProducerState.mark)
      ((statesOn line (provisionals (a.admitSpans spans).admitted)).map ProducerState.mark) :=
  ((Admits.initial a).foldl spans.zipIdx).chained line

/-- An answer that repeats the state a span's line has in the allocator. -/
def Repeats (a : Allocator) (items : List (CommittedSpan × Nat))
    (answer : Nat × TopicId × Nat × Assignment) : Prop :=
  ∃ span identity state, (span, answer.1) ∈ items ∧ span.producer = some identity ∧
    a.producerState.lookup (identity.id, span.topic, span.partition) = some state ∧
    state.mark = (identity.epoch, identity.sequence) ∧ state.recordCount = span.recordCount ∧
    answer.2.2.2 = ⟨span.topic, span.partition, state.baseOffset, state.recordCount⟩

theorem repeats_admitSpan {a : Allocator} {items : List (CommittedSpan × Nat)}
    {held : Admission × RunningLines} (repeated : ∀ x ∈ held.1.replayed, a.Repeats items x)
    {item : CommittedSpan × Nat} (hitem : item ∈ items) :
    ∀ x ∈ (a.admitSpan held item).1.replayed, a.Repeats items x := by
  unfold admitSpan
  cases hproducer : item.1.producer with
  | none => exact repeated
  | some identity =>
    dsimp only
    cases hdecision : classify
        (a.currentLine held.2 (identity.id, item.1.topic, item.1.partition)).1
        (a.currentLine held.2 (identity.id, item.1.topic, item.1.partition)).2
        identity.sequence identity.epoch item.1.recordCount with
    | admits => exact repeated
    | reject reason => exact repeated
    | replay state =>
      obtain ⟨hcurrent, settled, hmark, hcount⟩ := classify_eq_replay hdecision
      have stored : a.producerState.lookup (identity.id, item.1.topic, item.1.partition) =
          some state := by
        -- Only the allocator's own map answers without being provisional.
        unfold currentLine at hcurrent settled
        split at hcurrent
        · rename_i running hrunning
          simp [hrunning] at settled
        · exact hcurrent
      intro x hx
      rcases List.mem_append.mp hx with hx | hx
      · exact repeated x hx
      · rw [List.mem_singleton] at hx
        subst hx
        exact ⟨item.1, identity, state, hitem, hproducer, stored, hmark, hcount, rfl⟩

theorem admitSpans_replayed (a : Allocator) (spans : List CommittedSpan)
    {answer : Nat × TopicId × Nat × Assignment} (h : answer ∈ (a.admitSpans spans).replayed) :
    a.Repeats spans.zipIdx answer := by
  have collects : ∀ (rest : List (CommittedSpan × Nat)) (held : Admission × RunningLines),
      (∀ x ∈ rest, x ∈ spans.zipIdx) → (∀ x ∈ held.1.replayed, a.Repeats spans.zipIdx x) →
      ∀ x ∈ (rest.foldl a.admitSpan held).1.replayed, a.Repeats spans.zipIdx x := by
    intro rest
    induction rest with
    | nil => exact fun held _ repeated => repeated
    | cons item rest ih =>
      intro held inside repeated
      exact ih _ (fun x hx => inside x (List.mem_cons_of_mem _ hx))
        (repeats_admitSpan repeated (inside item (List.mem_cons_self ..)))
  exact collects spans.zipIdx ({}, ∅) (fun _ h => h) (by simp) answer h

end Allocator

end Oqueue
