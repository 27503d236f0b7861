import Oqueue.Compact.ExpiryRuns
import Oqueue.Library.Cyclic

/-!
# Going round the topics whose setting is reconciled

A page that is longer than the set goes round past where it started, and names
again what it had named.
-/

namespace Oqueue

namespace ExpiryHeap

open Cyclic

variable {heap : ExpiryHeap} {index : IndexState}

def Ordered (heap : ExpiryHeap) : Prop := heap.topics.Pairwise fun a b => a.name < b.name

theorem pairwise_insertOrdered {topic : TopicId} {topics : List TopicId}
    (ordered : topics.Pairwise fun a b => a.name < b.name) :
    (insertOrdered (fun a b : TopicId => a.name ≤ b.name) topic topics).Pairwise
      fun a b => a.name < b.name := by
  unfold insertOrdered
  split
  · exact ordered
  · rename_i fresh
    induction topics with
    | nil => exact List.pairwise_singleton ..
    | cons first rest ih =>
      obtain ⟨below, later⟩ := List.pairwise_cons.mp ordered
      obtain ⟨differs, fresh⟩ := List.ne_and_not_mem_of_not_mem_cons fresh
      rw [List.orderedInsert_cons]
      split
      · rename_i le
        have less : topic.name < first.name :=
          lt_of_le_of_ne le fun same => differs (by cases topic; cases first; cases same; rfl)
        refine List.pairwise_cons.mpr ⟨fun x member => ?_, ordered⟩
        rcases List.mem_cons.mp member with rfl | member
        · exact less
        · exact less.trans (below x member)
      · rename_i after
        refine List.pairwise_cons.mpr ⟨fun x member => ?_, ih later fresh⟩
        rcases (List.mem_orderedInsert _).mp member with rfl | member
        · exact not_le.mp after
        · exact below x member

theorem Ordered.track (ordered : heap.Ordered) (key : PartitionKey) :
    (heap.track index key).Ordered := by
  unfold ExpiryHeap.track
  split
  · exact ordered
  · split
    · exact ordered
    · exact pairwise_insertOrdered ordered

theorem Ordered.rearm (ordered : heap.Ordered) (key : PartitionKey) :
    (heap.rearm index key).Ordered := by
  unfold ExpiryHeap.rearm
  cases heap.armed.lookup key with
  | none => exact ordered.track key
  | some deadline =>
    have kept : Ordered { heap with
      armed := heap.armed.erase key, due := heap.due.erase (deadline, key) } := ordered
    exact kept.track key

theorem Ordered.foldl {γ : Type} {call : ExpiryHeap → γ → ExpiryHeap} {calls : List γ}
    (keeps : ∀ heap item, Ordered heap → (call heap item).Ordered) (ordered : heap.Ordered) :
    (calls.foldl call heap).Ordered :=
  List.foldlRecOn calls call ordered fun heap ordered item _ => keeps heap item ordered

theorem Ordered.setTopicRetention (ordered : heap.Ordered) (topic : TopicId)
    (retentionMs : Option Int) : (heap.setTopicRetention index topic retentionMs).Ordered := by
  have keeps : (heap.overridden topic retentionMs).Ordered := ordered
  rw [setTopicRetention_eq]
  split
  · exact Ordered.foldl (fun _ key ordered => ordered.rearm key) keeps
  · exact ordered

theorem Ordered.disarm (ordered : heap.Ordered) (key : PartitionKey) :
    (heap.disarm key).Ordered := by
  unfold ExpiryHeap.disarm Ordered
  dsimp only
  split
  · exact ordered
  · exact ordered.sublist List.erase_sublist

theorem Ordered.popDue (now : Nat) (due : List Expiry) {popping : Popping}
    (ordered : popping.heap.Ordered) : (popDue index now due popping).heap.Ordered := by
  induction due generalizing popping with
  | nil => exact ordered
  | cons entry rest ih =>
    unfold ExpiryHeap.popDue
    split
    · exact ordered
    · apply ih
      unfold Popping.pop
      dsimp only
      have kept : Ordered { popping.heap with
        due := rest, popped := popping.heap.popped + 1 } := ordered
      split
      · exact kept
      · split
        · exact kept.disarm entry.2
        · exact kept.disarm entry.2

theorem Ordered.dueAt (ordered : heap.Ordered) (now : Nat) :
    (heap.dueAt index now).1.Ordered := by
  unfold ExpiryHeap.dueAt
  have cleared : Ordered { heap with popped := 0 } := ordered
  have popping : ({ heap := { heap with popped := 0 } } : Popping).heap.Ordered := cleared
  apply Ordered.foldl fun _ key ordered => ordered.track key
  exact popping.popDue now heap.due

theorem ordered_after (retentionMs : I64) (steps : List (IndexState × ExpiryCall)) :
    (steps.foldl Watch.next (Watch.new retentionMs)).heap.Ordered := by
  have start : (Watch.new retentionMs).heap.Ordered := .nil
  refine List.foldlRecOn steps Watch.next start (motive := fun watch => watch.heap.Ordered) ?_
  intro watch ordered step _
  obtain ⟨index, call⟩ := step
  cases call with
  | track key => exact ordered.track key
  | setTopicRetention topic retentionMs => exact ordered.setTopicRetention topic _
  | due now => exact ordered.dueAt now

/-- What the wrap comes back to: a page of the whole set where nothing is past the cursor, or
where no more is asked for than there is. -/
def Fits (heap : ExpiryHeap) (cursor : Option TopicId) (limit : Nat) : Prop :=
  limit ≤ heap.topics.length ∨
    ∀ after, cursor = some after → ∀ topic ∈ heap.topics, ¬ after.name < topic.name

theorem topicsAfter_some (after : TopicId) (limit : Nat) : heap.topicsAfter (some after) limit =
    ((heap.topics.filter fun topic => after.name < topic.name).take limit) ++
      heap.topics.take
        (limit - ((heap.topics.filter fun topic => after.name < topic.name).take limit).length) :=
  rfl

theorem topicsAfter_eq (ordered : heap.Ordered) {cursor : Option TopicId} {limit : Nat}
    (fits : heap.Fits cursor limit) :
    heap.topicsAfter cursor limit = (following TopicId.name heap.topics cursor).take limit := by
  cases cursor with
  | none => rfl
  | some after =>
    obtain ⟨k, past, upto⟩ := split_at ordered after
    rw [topicsAfter_some, following_some, past, upto]
    rcases fits with fits | nothing
    · rw [List.take_append, List.length_take, List.length_drop, List.take_take]
      congr 2
      omega
    · have none_past : heap.topics.drop k = [] := by
        rw [← past]
        exact List.filter_eq_nil_iff.mpr fun topic member => by
          simpa using nothing after rfl topic member
      rw [none_past, List.take_nil, List.length_nil, Nat.sub_zero, List.nil_append,
        List.nil_append, List.take_of_length_le (List.drop_eq_nil_iff.mp none_past)]

theorem fits_of_length (ordered : heap.Ordered) {cursor : Option TopicId} {limit : Nat}
    (count : (heap.topicsAfter cursor limit).length = min limit heap.topics.length) :
    heap.Fits cursor limit := by
  rcases Nat.lt_or_ge heap.topics.length limit with more | fits
  · right
    intro after same topic member past
    subst same
    obtain ⟨k, past_eq, -⟩ := split_at ordered after
    have among : topic ∈ heap.topics.drop k := by
      rw [← past_eq]
      exact List.mem_filter.mpr ⟨member, decide_eq_true past⟩
    have some_ := List.length_pos_of_mem among
    rw [List.length_drop] at some_
    rw [topicsAfter_some, past_eq, List.length_append, List.length_take, List.length_take,
      List.length_drop] at count
    omega
  · exact .inl fits

/-- Pages of topics go round the set: each is the next so many, none of them twice, and
together they come to every one. -/
structure GoesRound (heap : ExpiryHeap) (cursor : Option TopicId) (limit : Nat) : Prop where
  cyclic : heap.topicsAfter cursor limit <+: following TopicId.name heap.topics cursor
  distinct : (heap.topicsAfter cursor limit).Nodup
  tracked : ∀ topic ∈ heap.topicsAfter cursor limit, topic ∈ heap.topics
  count : (heap.topicsAfter cursor limit).length = min limit heap.topics.length
  visits : ∀ topic ∈ heap.topics, ∃ rounds, rounds * limit < heap.topics.length ∧
    topic ∈ heap.topicsAfter
      (cursorAfter (fun cursor => heap.topicsAfter cursor limit) rounds cursor) limit

theorem GoesRound.of_fits (ordered : heap.Ordered) {cursor : Option TopicId} {limit : Nat}
    (some_ : heap.topics = [] ∨ 0 < limit) (fits : heap.Fits cursor limit) :
    heap.GoesRound cursor limit := by
  have page := topicsAfter_eq ordered fits
  have perm := following_perm ordered cursor
  have distinct : heap.topics.Nodup := by
    refine ordered.imp fun less same => ?_
    subst same
    exact absurd less (lt_irrefl _)
  constructor
  case cyclic =>
    rw [page]
    exact List.take_prefix ..
  case distinct =>
    rw [page]
    exact (perm.nodup_iff.mpr distinct).sublist (List.take_sublist ..)
  case tracked =>
    intro topic member
    rw [page] at member
    exact perm.mem_iff.mp (List.mem_of_mem_take member)
  case count => rw [page, List.length_take, perm.length_eq]
  case visits =>
    intro topic member
    have some_ : 0 < limit := some_.resolve_left (List.ne_nil_of_mem member)
    rcases Nat.lt_or_ge heap.topics.length limit with more | whole
    · refine ⟨0, ?_, ?_⟩
      · rw [Nat.zero_mul]
        exact List.length_pos_of_mem member
      · rw [cursorAfter, page, List.take_of_length_le (perm.length_eq.trans_le more.le)]
        exact perm.mem_iff.mpr member
    · have pages : (fun cursor => heap.topicsAfter cursor limit) =
          fun cursor => (following TopicId.name heap.topics cursor).take limit :=
        funext fun cursor => topicsAfter_eq ordered (.inl whole)
      obtain ⟨rounds, few, here⟩ := exists_mem_page ordered some_ whole cursor member
      refine ⟨rounds, few, ?_⟩
      rw [pages, topicsAfter_eq ordered (.inl whole)]
      exact here

/-- Pages go round just where they are of some topics, and end before they come back to what they
started from. -/
theorem topics_go_round_iff (retentionMs : I64) (steps : List (IndexState × ExpiryCall))
    (cursor : Option TopicId) (limit : Nat) :
    let heap := (steps.foldl Watch.next (Watch.new retentionMs)).heap
    heap.GoesRound cursor limit ↔ (heap.topics = [] ∨ 0 < limit) ∧ heap.Fits cursor limit := by
  intro heap
  have ordered : heap.Ordered := ordered_after retentionMs steps
  constructor
  · intro goes
    refine ⟨?_, fits_of_length ordered goes.count⟩
    by_cases none_ : heap.topics = []
    · exact .inl none_
    · right
      obtain ⟨topic, member⟩ := List.exists_mem_of_ne_nil _ none_
      obtain ⟨rounds, -, here⟩ := goes.visits topic member
      by_contra zero
      cases Nat.eq_zero_of_not_pos zero
      rw [topicsAfter_eq ordered (.inl (Nat.zero_le _)), List.take_zero] at here
      cases here
  · intro ⟨some_, fits⟩
    exact .of_fits ordered some_ fits

def twoTopics : IndexState :=
  (IndexState.new.apply [⟨0, .batchCommitted ⟨"o"⟩
    [⟨⟨"a"⟩, 0, 1, .full, none⟩, ⟨⟨"b"⟩, 0, 1, .full, none⟩] 5⟩]).toOption.getD .new

/-- A topic armed after the cursor was left at the only one is named twice. -/
theorem topics_named_twice :
    let heap := ([(twoTopics, .track (⟨"a"⟩, 0)), (twoTopics, .track (⟨"b"⟩, 0))].foldl Watch.next
      (Watch.new ⟨1000, by decide⟩)).heap
    heap.topicsAfter none 1 = [⟨"a"⟩] ∧ heap.topicsAfter (some ⟨"a"⟩) 64 = [⟨"b"⟩, ⟨"a"⟩, ⟨"b"⟩] ∧
      ¬ (heap.topicsAfter (some ⟨"a"⟩) 64).Nodup := by
  decide +kernel

end ExpiryHeap

end Oqueue
