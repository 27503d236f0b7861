import Oqueue.Compact.Expiry

/-!
# No partition is lost

A heap is called with whatever the index has become, whose newest commits only move
on. Which partitions it owes a trim is kept beside it. Setting a retention arms again
only what is armed, so it is the one call that can leave the topics wrong or pass by a
partition that fell out because its deadline was no `i64`.
-/

namespace Oqueue

abbrev I64 := { value : Int // -(2 ^ 63 : Int) ≤ value ∧ value < 2 ^ 63 }

/-- A partition's newest commit, where the index knows it. -/
def newest (index : IndexState) (key : PartitionKey) : Option Nat :=
  (index.timeSpan key).map TimeSpan.max

/-- No partition's newest commit goes backwards. -/
def Forward (index later : IndexState) : Prop :=
  ∀ key when, newest index key = some when → ∃ when', newest later key = some when' ∧ when ≤ when'

namespace ExpiryHeap

def retentionOf (self : ExpiryHeap) (topic : TopicId) : Int :=
  (self.topicRetentionMs.lookup topic).getD self.retentionMs

/-- A deadline is the newest commit plus the retention, where that is an `i64`. -/
theorem deadline_eq_some {self : ExpiryHeap} {index : IndexState} {key : PartitionKey}
    {deadline : Int} : self.deadline index key = some deadline ↔ ∃ when, newest index key = some when ∧
      when ≠ 0 ∧ deadline = when + self.retentionOf key.1 ∧
      -(2 ^ 63 : Int) ≤ deadline ∧ deadline < 2 ^ 63 := by
  unfold ExpiryHeap.deadline newest retentionOf
  cases index.timeSpan key with
  | none => exact iff_of_false nofun fun ⟨_, h, _⟩ => nomatch h
  | some span =>
    rw [Option.bind_some, Option.map_some]
    constructor
    · intro h
      split at h
      · cases h
      rename_i some_
      unfold checkedAddI64 at h
      split at h
      · rename_i fits
        cases h
        exact ⟨span.max, rfl, some_, rfl, fits⟩
      · cases h
    · rintro ⟨when, same, some_, rfl, fits⟩
      cases same
      rw [if_neg some_]
      exact if_pos fits

end ExpiryHeap

/-- A heap, the index it was last called with, and the partitions it owes a trim. -/
structure Watch where
  heap : ExpiryHeap
  index : IndexState
  tracked : List PartitionKey

inductive ExpiryCall where
  | track (key : PartitionKey)
  | setTopicRetention (topic : TopicId) (retentionMs : Option I64)
  | due (now : Nat)

namespace Watch

open ExpiryHeap

def new (retentionMs : I64) : Watch := ⟨.new retentionMs, {}, []⟩

/-- A call made with what the index is then. A partition is owed a trim from when it is
tracked with a commit known to be after the epoch until a round judges it. -/
def next (self : Watch) (step : IndexState × ExpiryCall) : Watch :=
  match step.2 with
  | .track key => ⟨self.heap.track step.1 key, step.1,
      if (newest step.1 key).any (fun when => decide (when ≠ 0)) then key :: self.tracked
      else self.tracked⟩
  | .setTopicRetention topic retentionMs =>
    ⟨self.heap.setTopicRetention step.1 topic (retentionMs.map Subtype.val), step.1, self.tracked⟩
  | .due now => ⟨(self.heap.dueAt step.1 now).1, step.1,
      self.tracked.filter fun key => !decide (self.heap.Judged step.1 now key)⟩

/-- The heap after the first so many calls. -/
def after (retentionMs : I64) (steps : List (IndexState × ExpiryCall)) (count : Nat) : Watch :=
  (steps.take count).foldl next (new retentionMs)

structure Lawful (watch : Watch) : Prop where
  due : watch.heap.due.Nodup ∧ ∀ deadline key,
    (deadline, key) ∈ watch.heap.due ↔ watch.heap.armed.lookup key = some deadline
  topics : watch.heap.topics.Nodup ∧ ∀ topic,
    topic ∈ watch.heap.topics ↔ ∃ key ∈ watch.heap.armed, key.1 = topic
  sound : ∀ index now, ∀ record ∈ (watch.heap.dueAt index now).2, ∃ key when,
    newest index key = some when ∧ (when : Int) + watch.heap.retentionOf key.1 ≤ now ∧
      record = .trimmed key.1 key.2 (index.endOffset key)
  armed : ∀ key ∈ watch.tracked, ∀ deadline, watch.heap.deadline watch.index key = some deadline →
    ∃ armed, watch.heap.armed.lookup key = some armed ∧ armed ≤ deadline
  emitted : ∀ later, Forward watch.index later → ∀ key ∈ watch.tracked, ∀ deadline,
    watch.heap.deadline later key = some deadline → later.logStart key < later.endOffset key →
    ∀ now now' : Nat, deadline ≤ now → deadline ≤ now' →
      .trimmed key.1 key.2 (later.endOffset key) ∈ (watch.heap.dueAt later now).2 ++
        ((watch.heap.dueAt later now).1.dueAt later now').2

/-- A setting that changes leaves a deadline to some armed partition of its topic, if one
is armed, and gives none to a tracked one that is not. -/
def Clear (self : Watch) (step : IndexState × ExpiryCall) : Prop :=
  match step.2 with
  | .track _ => True
  | .setTopicRetention topic retentionMs =>
    let under := (self.heap.overridden topic (retentionMs.map Subtype.val)).deadline step.1
    self.heap.changes topic (retentionMs.map Subtype.val) = true →
      ((∃ key ∈ self.heap.armed, key.1 = topic) →
        ∃ key ∈ self.heap.armed, key.1 = topic ∧ (under key).isSome = true) ∧
      ∀ key ∈ self.tracked, key.1 = topic → key ∉ self.heap.armed → under key = none
  | .due _ => True

/-- The retentions a heap holds are none of them below an `i64`'s least. -/
structure Typed (heap : ExpiryHeap) : Prop where
  default_ : -(2 ^ 63 : Int) ≤ heap.retentionMs
  topics : ∀ topic value, heap.topicRetentionMs.lookup topic = some value → -(2 ^ 63 : Int) ≤ value

theorem Typed.retentionOf {heap : ExpiryHeap} (typed : Typed heap) (topic : TopicId) :
    -(2 ^ 63 : Int) ≤ heap.retentionOf topic := by
  unfold ExpiryHeap.retentionOf
  cases held : heap.topicRetentionMs.lookup topic with
  | none => exact typed.default_
  | some value => exact typed.topics topic value held

theorem Typed.alike {next heap : ExpiryHeap} (typed : Typed heap) (alike : Alike next heap) :
    Typed next := by
  refine ⟨alike.retention ▸ typed.default_, ?_⟩
  rw [alike.topics]
  exact typed.topics

theorem Typed.overridden {heap : ExpiryHeap} (typed : Typed heap) (topic : TopicId)
    (retentionMs : Option I64) : Typed (heap.overridden topic (retentionMs.map Subtype.val)) := by
  refine ⟨typed.default_, fun other value held => ?_⟩
  cases retentionMs with
  | none =>
    refine typed.topics other value ?_
    change (heap.topicRetentionMs.erase topic).lookup other = some value at held
    by_cases here : other = topic
    · rw [here, AList.lookup_erase] at held
      cases held
    · rwa [AList.lookup_erase_ne here] at held
  | some set =>
    change (heap.topicRetentionMs.insert topic set.val).lookup other = some value at held
    rw [Table.alist_lookup_insert_eq] at held
    split at held
    · cases held
      exact set.2.1
    · exact typed.topics other value held

structure Kept (watch : Watch) : Prop where
  paired : watch.heap.Paired
  topical : watch.heap.Topical
  typed : Typed watch.heap
  known : ∀ key ∈ watch.tracked, ∃ when, newest watch.index key = some when ∧ when ≠ 0
  tracked : ∀ key ∈ watch.heap.armed, key ∈ watch.tracked
  armed : ∀ key ∈ watch.tracked, ∀ deadline, watch.heap.deadline watch.index key = some deadline →
    ∃ armed, watch.heap.armed.lookup key = some armed ∧ armed ≤ deadline

theorem new_kept (retentionMs : I64) : (new retentionMs).Kept where
  paired := ⟨.nil, .nil, fun _ _ => ⟨nofun, nofun⟩⟩
  topical := ⟨.nil, fun _ => ⟨nofun, fun ⟨_, armed, _⟩ => nomatch armed⟩⟩
  typed := ⟨retentionMs.2.1, nofun⟩
  known := nofun
  tracked := fun _ armed => nomatch armed
  armed := nofun

variable {watch : Watch} {later : IndexState} {key : PartitionKey}

theorem Kept.deadline_le (kept : watch.Kept) (forward : Forward watch.index later)
    (tracked : key ∈ watch.tracked) {deadline : Int}
    (known : watch.heap.deadline later key = some deadline) :
    ∃ earlier, watch.heap.deadline watch.index key = some earlier ∧ earlier ≤ deadline := by
  obtain ⟨when, held, some_⟩ := kept.known key tracked
  obtain ⟨when', held', le⟩ := forward key when held
  obtain ⟨_, same, -, rfl, fits⟩ := deadline_eq_some.mp known
  obtain rfl : when' = _ := Option.some.inj (held'.symm.trans same)
  have typed := kept.typed.retentionOf key.1
  refine ⟨when + watch.heap.retentionOf key.1,
    deadline_eq_some.mpr ⟨when, held, some_, rfl, ?_, ?_⟩, ?_⟩ <;> omega

theorem Kept.moved (kept : watch.Kept) (forward : Forward watch.index later) :
    Kept { watch with index := later } where
  paired := kept.paired
  topical := kept.topical
  typed := kept.typed
  known := by
    intro key tracked
    obtain ⟨when, held, some_⟩ := kept.known key tracked
    obtain ⟨when', held', le⟩ := forward key when held
    exact ⟨when', held', by omega⟩
  tracked := kept.tracked
  armed := by
    intro key tracked deadline known
    obtain ⟨earlier, held, le⟩ := kept.deadline_le forward tracked known
    obtain ⟨armed, there, before⟩ := kept.armed key tracked earlier held
    exact ⟨armed, there, before.trans le⟩

theorem lawful_of_kept (kept : watch.Kept) : watch.Lawful where
  due := ⟨kept.paired.nodup, kept.paired.pairs⟩
  topics := ⟨kept.topical.nodup, kept.topical.topics⟩
  sound := by
    intro index now record member
    obtain ⟨-, -, -, -, trims⟩ := @dueAt_paired _ index now kept.paired
    obtain ⟨key, ⟨deadline, -, due, agrees⟩, -, rfl⟩ := (trims record).mp member
    obtain ⟨when, held, -, rfl, -⟩ := deadline_eq_some.mp agrees
    exact ⟨key, when, held, due, rfl⟩
  armed := kept.armed
  emitted := by
    intro later forward key tracked deadline known some_ now now' due due'
    obtain ⟨armed, held, le⟩ := (kept.moved forward).armed key tracked deadline known
    obtain ⟨alike, paired, -, lookups, trims⟩ := @dueAt_paired _ later now kept.paired
    rw [List.mem_append]
    by_cases agrees : deadline = armed
    · subst agrees
      exact .inl ((trims _).mpr ⟨key, ⟨deadline, held, due, known⟩, some_, rfl⟩)
    · -- armed early: the first round arms it where it belongs, the second judges it
      obtain ⟨-, -, -, -, trims'⟩ := @dueAt_paired _ later now' paired
      refine .inr ((trims' _).mpr ⟨key, ⟨deadline, ?_, due', by rw [alike.deadline]; exact known⟩, some_, rfl⟩)
      rw [lookups, held, Option.bind_some, if_neg (not_lt.mpr (le.trans due)), if_neg, known]
      exact fun here => agrees (Option.some.inj (known.symm.trans here))

theorem mem_owed {tracked : List PartitionKey} {other : PartitionKey} :
    (other ∈ if (newest later key).any (fun when => decide (when ≠ 0)) then key :: tracked
      else tracked) ↔
      other ∈ tracked ∨ (other = key ∧ ∃ when, newest later key = some when ∧ when ≠ 0) := by
  have known : (newest later key).any (fun when => decide (when ≠ 0)) = true ↔
      ∃ when, newest later key = some when ∧ when ≠ 0 := by simp [Option.any_eq_true]
  split
  · rename_i h
    rw [List.mem_cons, or_comm, and_iff_left (known.mp h)]
  · rename_i h
    exact ⟨.inl, fun there => there.resolve_right fun both => h (known.mpr both.2)⟩

/-- A partition that is tracked is armed if it can be, and one that is armed stays so. -/
theorem Kept.track (kept : watch.Kept) : (watch.next (watch.index, .track key)).Kept := by
  have alike : Alike (watch.heap.track watch.index key) watch.heap := alike_track
  refine ⟨kept.paired.track, kept.topical.track, kept.typed.alike alike, ?_, ?_, ?_⟩
  · intro other owed
    rcases mem_owed.mp owed with there | ⟨rfl, known⟩
    · exact kept.known other there
    · exact known
  · intro other armed
    obtain ⟨deadline, held⟩ := mem_armed.mp armed
    refine mem_owed.mpr ?_
    change (watch.heap.track watch.index key).armed.lookup other = some deadline at held
    rw [lookup_track] at held
    split at held
    · rename_i here
      subst here
      cases was : watch.heap.armed.lookup other with
      | some armed => exact .inl (kept.tracked other (mem_armed.mpr ⟨armed, was⟩))
      | none =>
        rw [was, Option.none_or] at held
        obtain ⟨when, known, some_, -⟩ := deadline_eq_some.mp held
        exact .inr ⟨rfl, when, known, some_⟩
    · exact .inl (kept.tracked other (mem_armed.mpr ⟨deadline, held⟩))
  · intro other owed deadline known
    change ∃ armed, (watch.heap.track watch.index key).armed.lookup other = some armed ∧ _
    change (watch.heap.track watch.index key).deadline watch.index other = some deadline at known
    rw [alike.deadline] at known
    rw [lookup_track]
    split
    · rename_i here
      subst here
      cases was : watch.heap.armed.lookup other with
      | none =>
        rw [Option.none_or]
        exact ⟨deadline, known, le_refl _⟩
      | some armed =>
        obtain ⟨armed', held, le⟩ :=
          kept.armed other (kept.tracked other (mem_armed.mpr ⟨armed, was⟩)) deadline known
        rw [was] at held
        exact ⟨armed', held, le⟩
    · rename_i differs
      rcases mem_owed.mp owed with there | ⟨here, -⟩
      · exact kept.armed other there deadline known
      · exact absurd here differs

/-- A round takes out what it judged, and arms what was armed early where it belongs. -/
theorem Kept.due (kept : watch.Kept) (now : Nat) : (watch.next (watch.index, .due now)).Kept := by
  obtain ⟨alike, paired, topical, lookups, -⟩ := @dueAt_paired _ watch.index now kept.paired
  have owed (other : PartitionKey) : other ∈ (watch.next (watch.index, .due now)).tracked ↔
      other ∈ watch.tracked ∧ ¬watch.heap.Judged watch.index now other := by
    unfold next
    simp
  refine ⟨paired, topical kept.topical, kept.typed.alike alike, ?_, ?_, ?_⟩
  · intro other there
    exact kept.known other ((owed other).mp there).1
  · intro other armed
    obtain ⟨deadline, held⟩ := mem_armed.mp armed
    change (watch.heap.dueAt watch.index now).1.armed.lookup other = some deadline at held
    rw [lookups] at held
    obtain ⟨was, armed, held⟩ := Option.bind_eq_some_iff.mp held
    refine (owed other).mpr ⟨kept.tracked other (mem_armed.mpr ⟨was, armed⟩), ?_⟩
    rintro ⟨when, there, come, agrees⟩
    rw [armed] at there
    cases there
    rw [if_neg (not_lt.mpr come), if_pos agrees] at held
    cases held
  · intro other there deadline known
    obtain ⟨tracked, unjudged⟩ := (owed other).mp there
    change (watch.heap.dueAt watch.index now).1.deadline watch.index other = some deadline at known
    change ∃ armed, (watch.heap.dueAt watch.index now).1.armed.lookup other = some armed ∧ _
    rw [alike.deadline] at known
    obtain ⟨armed, held, le⟩ := kept.armed other tracked deadline known
    rw [lookups, held, Option.bind_some]
    by_cases ahead : (now : Int) < armed
    · rw [if_pos ahead]
      exact ⟨armed, rfl, le⟩
    · have moved : watch.heap.deadline watch.index other ≠ some armed :=
        fun agrees => unjudged ⟨armed, held, not_lt.mp ahead, agrees⟩
      rw [if_neg ahead, if_neg moved]
      exact ⟨deadline, known, le_refl _⟩

/-- A setting that is clear arms again whatever of its topic has a deadline. -/
theorem Kept.setTopicRetention (kept : watch.Kept) (topic : TopicId) (retentionMs : Option I64)
    (clear : watch.Clear (watch.index, .setTopicRetention topic retentionMs)) :
    (watch.next (watch.index, .setTopicRetention topic retentionMs)).Kept := by
  by_cases changed : watch.heap.changes topic (retentionMs.map Subtype.val) = true
  · obtain ⟨some_, none_⟩ := clear changed
    obtain ⟨alike, paired, nodup, lookups, topics⟩ :=
      @setTopicRetention_paired _ watch.index kept.paired kept.topical.nodup _ _ changed
    have owed : ∀ key, key ∈ (watch.heap.setTopicRetention watch.index topic
        (retentionMs.map Subtype.val)).armed → key ∈ watch.heap.armed := by
      intro key armed
      obtain ⟨deadline, held⟩ := mem_armed.mp armed
      rw [lookups] at held
      split at held
      · rename_i both
        exact both.1
      · exact mem_armed.mpr ⟨deadline, held⟩
    refine ⟨paired, ⟨nodup, fun held => ?_⟩, (kept.typed.overridden topic retentionMs).alike alike,
      kept.known, fun key armed => kept.tracked key (owed key armed), ?_⟩
    · change held ∈ (watch.heap.setTopicRetention watch.index topic _).topics ↔
        ∃ key ∈ (watch.heap.setTopicRetention watch.index topic _).armed, _
      rw [topics, kept.topical.topics]
      constructor
      · intro there
        have was : ∃ key ∈ watch.heap.armed, key.1 = held := by
          rcases there with was | ⟨key, armed, -, rfl, -⟩
          · exact was
          · exact ⟨key, armed, rfl⟩
        by_cases here : held = topic
        · subst here
          obtain ⟨key, armed, mine, known⟩ := some_ was
          obtain ⟨deadline, known⟩ := Option.isSome_iff_exists.mp known
          refine ⟨key, mem_armed.mpr ⟨deadline, ?_⟩, mine⟩
          rw [lookups, if_pos ⟨armed, mine⟩]
          exact known
        · obtain ⟨key, armed, rfl⟩ := was
          obtain ⟨deadline, armed⟩ := mem_armed.mp armed
          refine ⟨key, mem_armed.mpr ⟨deadline, ?_⟩, rfl⟩
          rw [lookups, if_neg fun both => here both.2]
          exact armed
      · rintro ⟨key, armed, rfl⟩
        exact .inl ⟨key, owed key armed, rfl⟩
    · intro key tracked deadline known
      change (watch.heap.setTopicRetention watch.index topic _).deadline watch.index key =
        some deadline at known
      change ∃ armed, (watch.heap.setTopicRetention watch.index topic _).armed.lookup key =
        some armed ∧ _
      rw [alike.deadline] at known
      rw [lookups]
      split
      · exact ⟨deadline, known, le_refl _⟩
      · rename_i apart
        by_cases mine : key.1 = topic
        · have none_ := none_ key tracked mine fun armed => apart ⟨armed, mine⟩
          exact nomatch none_.symm.trans known
        · rw [deadline_overridden mine] at known
          exact kept.armed key tracked deadline known
  · have same : watch.next (watch.index, .setTopicRetention topic retentionMs) = watch := by
      unfold next
      dsimp only
      rw [setTopicRetention_eq, if_neg changed]
    rw [same]
    exact kept

theorem Kept.next (kept : watch.Kept) {step : IndexState × ExpiryCall}
    (forward : Forward watch.index step.1) (clear : watch.Clear step) : (watch.next step).Kept := by
  obtain ⟨later, call⟩ := step
  have moved := kept.moved forward
  cases call with
  | track key => exact moved.track
  | setTopicRetention topic retentionMs => exact moved.setTopicRetention topic retentionMs clear
  | due now => exact moved.due now

/-- A call that is not clear leaves a topic no partition of which is armed, or passes by a
partition that has a deadline again. -/
theorem clear_of_lawful {step : IndexState × ExpiryCall} (before : watch.Lawful)
    (after : (watch.next step).Lawful) (paired : watch.heap.Paired) : watch.Clear step := by
  obtain ⟨later, call⟩ := step
  cases call with
  | track key => trivial
  | due now => trivial
  | setTopicRetention topic retentionMs =>
    intro changed
    obtain ⟨alike, -, -, lookups, topics⟩ :=
      @setTopicRetention_paired _ later paired before.topics.1 _ _ changed
    refine ⟨fun armed => ?_, fun key tracked mine unarmed => ?_⟩
    · have still : topic ∈ (watch.next (later, .setTopicRetention topic retentionMs)).heap.topics :=
        (topics topic).mpr (.inl ((before.topics.2 topic).mpr armed))
      obtain ⟨key, armed, mine⟩ := (after.topics.2 topic).mp still
      obtain ⟨deadline, held⟩ := mem_armed.mp armed
      change (watch.heap.setTopicRetention later topic _).armed.lookup key = some deadline at held
      rw [lookups] at held
      split at held
      · rename_i both
        exact ⟨key, both.1, mine, Option.isSome_iff_exists.mpr ⟨deadline, held⟩⟩
      · rename_i apart
        exact absurd ⟨mem_armed.mpr ⟨deadline, held⟩, mine⟩ apart
    · by_contra some_
      obtain ⟨deadline, known⟩ := Option.ne_none_iff_exists'.mp some_
      obtain ⟨armed, held, -⟩ := after.armed key tracked deadline (by
        change (watch.heap.setTopicRetention later topic _).deadline later key = some deadline
        rw [alike.deadline]
        exact known)
      change (watch.heap.setTopicRetention later topic _).armed.lookup key = some armed at held
      rw [lookups, if_neg fun both => unarmed both.1] at held
      exact unarmed (mem_armed.mpr ⟨armed, held⟩)

theorem lawful_iff_clear (steps : List (IndexState × ExpiryCall)) (kept : watch.Kept)
    (forward : List.IsChain Forward (watch.index :: steps.map Prod.fst)) :
    (∀ count, Lawful ((steps.take count).foldl next watch)) ↔
      ∀ count step, steps[count]? = some step →
        Clear ((steps.take count).foldl next watch) step := by
  induction steps generalizing watch with
  | nil =>
    refine iff_of_true (fun count => ?_) (fun count step there => by simp at there)
    rw [List.take_nil]
    exact lawful_of_kept kept
  | cons step rest ih =>
    rw [List.map_cons, List.isChain_cons_cons] at forward
    constructor
    · intro lawful count
      have clear : watch.Clear step :=
        clear_of_lawful (lawful 0) (lawful 1) kept.paired
      cases count with
      | zero =>
        rintro _ ⟨⟩
        exact clear
      | succ count => exact (ih (kept.next forward.1 clear) (by
          obtain ⟨index, call⟩ := step
          cases call <;> exact forward.2)).mp (fun count => lawful (count + 1)) count
    · intro clear count
      cases count with
      | zero => exact lawful_of_kept kept
      | succ count => exact (ih (kept.next forward.1 (clear 0 step rfl)) (by
          obtain ⟨index, call⟩ := step
          cases call <;> exact forward.2)).mpr (fun count => clear (count + 1)) count

/-- A heap is as it should be after every call exactly when every setting was clear: it
left some armed partition of its topic a deadline, and gave one to none that had dropped
out. -/
theorem heap_lawful_iff (retentionMs : I64) (steps : List (IndexState × ExpiryCall))
    (forward : (steps.map Prod.fst).IsChain Forward) :
    (∀ count, Lawful (after retentionMs steps count)) ↔
      ∀ count step, steps[count]? = some step → Clear (after retentionMs steps count) step := by
  refine lawful_iff_clear steps (new_kept retentionMs) ?_
  cases steps with
  | nil => exact .singleton _
  | cons step rest => exact .cons_cons (fun key when held => nomatch held) forward

theorem forward_refl (index : IndexState) : Forward index index :=
  fun _ when held => ⟨when, held, le_refl _⟩

/-- The index of one commit, a second after the epoch. -/
def committedOnce : IndexState :=
  ((IndexState.apply {} [⟨1, .batchCommitted ⟨"o"⟩ [⟨⟨"t"⟩, 0, 1, .bounded 0 1, none⟩] 1000⟩]).toOption).getD {}

def week : I64 := ⟨defaultRetentionMs, by decide⟩

/-- A partition tracked, and its topic's retention lowered and then cleared. -/
def loweredSteps : List (IndexState × ExpiryCall) :=
  [(committedOnce, .track (⟨"t"⟩, 0)),
    (committedOnce, .setTopicRetention ⟨"t"⟩ (some ⟨500, by decide⟩)),
    (committedOnce, .setTopicRetention ⟨"t"⟩ none)]

/-- The same, with the retention raised as far as it goes. -/
def maximisedSteps : List (IndexState × ExpiryCall) :=
  [(committedOnce, .track (⟨"t"⟩, 0)),
    (committedOnce, .setTopicRetention ⟨"t"⟩ (some ⟨2 ^ 63 - 1, by decide⟩)),
    (committedOnce, .setTopicRetention ⟨"t"⟩ none)]

theorem heap_lawful_lowered : Lawful (after week loweredSteps 3) := by
  refine (heap_lawful_iff week loweredSteps
    (.cons_cons (forward_refl _) (.cons_cons (forward_refl _) (.singleton _)))).mpr ?_ 3
  have clear (count : Nat) (topic : TopicId) (retentionMs : Option I64)
      (tracked : (after week loweredSteps count).tracked = [(⟨"t"⟩, 0)])
      (armed : (⟨"t"⟩, 0) ∈ (after week loweredSteps count).heap.armed)
      (known : (((after week loweredSteps count).heap.overridden topic
        (retentionMs.map Subtype.val)).deadline committedOnce (⟨"t"⟩, 0)).isSome = true)
      (mine : topic = ⟨"t"⟩) :
      Clear (after week loweredSteps count) (committedOnce, .setTopicRetention topic retentionMs) := by
    refine fun _ => ⟨fun _ => ⟨_, armed, mine.symm, known⟩, fun key there _ unarmed => ?_⟩
    rw [tracked, List.mem_singleton] at there
    exact absurd (there ▸ armed) unarmed
  intro count step there
  match count, there with
  | 0, there =>
    cases there
    trivial
  | 1, there =>
    cases there
    exact clear 1 _ _ (by decide +kernel) (by decide +kernel) (by decide +kernel) rfl
  | 2, there =>
    cases there
    exact clear 2 _ _ (by decide +kernel) (by decide +kernel) (by decide +kernel) rfl

/-- Raised as far as it goes, a retention empties the heap and leaves the topic in it;
cleared, it leaves the partition's data for good, due or not. -/
theorem heap_loses_maximised :
    (maximisedSteps.map Prod.fst).IsChain Forward ∧
      (after week maximisedSteps 2).heap.armed.keys = [] ∧
      (after week maximisedSteps 2).heap.topics = [⟨"t"⟩] ∧
      (⟨"t"⟩, 0) ∈ (after week maximisedSteps 3).tracked ∧
      (after week maximisedSteps 3).heap.deadline committedOnce (⟨"t"⟩, 0) = some 604801000 ∧
      ((after week maximisedSteps 3).heap.dueAt committedOnce 604801000).2 = [] ∧
      (((after week maximisedSteps 3).heap.dueAt committedOnce 604801000).1.dueAt committedOnce
        604801000).2 = [] ∧
      ¬Lawful (after week maximisedSteps 2) ∧ ¬Lawful (after week maximisedSteps 3) := by
  have topics : (after week maximisedSteps 2).heap.topics = [⟨"t"⟩] := by decide +kernel
  have armed : (after week maximisedSteps 2).heap.armed.keys = [] := by decide +kernel
  have owed : (⟨"t"⟩, 0) ∈ (after week maximisedSteps 3).tracked := by decide +kernel
  have known : (after week maximisedSteps 3).heap.deadline (after week maximisedSteps 3).index
      (⟨"t"⟩, 0) = some 604801000 := by decide +kernel
  have unarmed : (after week maximisedSteps 3).heap.armed.lookup (⟨"t"⟩, 0) = none := by
    decide +kernel
  refine ⟨.cons_cons (forward_refl _) (.cons_cons (forward_refl _) (.singleton _)), armed, topics,
    owed, known, by decide +kernel, by decide +kernel, fun lawful => ?_, fun lawful => ?_⟩
  · obtain ⟨key, there, -⟩ := (lawful.topics.2 ⟨"t"⟩).mp (by rw [topics]; exact List.mem_singleton_self _)
    rw [AList.mem_keys, armed] at there
    cases there
  · obtain ⟨deadline, there, -⟩ := lawful.armed _ owed _ known
    exact nomatch unarmed.symm.trans there

end Watch

end Oqueue
