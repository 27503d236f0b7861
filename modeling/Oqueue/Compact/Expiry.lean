import Oqueue.Compact.Retention

/-!
# What the expiry heap keeps

Every armed partition has one entry, at a deadline that can only be early: it is
checked against the index when it comes due. What a call does is said one partition at
a time, as what it leaves armed; the topic set is the one collection that follows
another, and the one a retention that nobody can wait for leaves behind.
-/

namespace Oqueue

namespace ExpiryHeap

variable {self : ExpiryHeap} {index : IndexState} {key : PartitionKey}

section
variable {α : Type} [DecidableEq α] {r : α → α → Prop} [DecidableRel r] {a x : α} {set : List α}

@[simp] theorem mem_insertOrdered : x ∈ insertOrdered r a set ↔ x = a ∨ x ∈ set := by
  unfold insertOrdered
  split
  · rename_i there
    exact ⟨.inr, fun h => h.elim (fun same => same ▸ there) id⟩
  · exact List.mem_orderedInsert r

theorem nodup_insertOrdered (nodup : set.Nodup) : (insertOrdered r a set).Nodup := by
  unfold insertOrdered
  split
  · exact nodup
  · rename_i fresh
    exact (List.perm_orderedInsert r a set).nodup_iff.mpr (List.nodup_cons.mpr ⟨fresh, nodup⟩)

end

theorem sorted_insertOrdered {entry : Expiry} {due : List Expiry}
    (sorted : due.Pairwise fun a b => a.1 ≤ b.1) :
    (insertOrdered Expiry.before entry due).Pairwise fun a b => a.1 ≤ b.1 := by
  unfold insertOrdered
  split
  · exact sorted
  · induction due with
    | nil => exact List.pairwise_singleton ..
    | cons first rest ih =>
      rename_i fresh
      obtain ⟨below, later⟩ := List.pairwise_cons.mp sorted
      rw [List.orderedInsert_cons]
      split
      · rename_i before
        have le : entry.1 ≤ first.1 := before.elim Int.le_of_lt fun h => Int.le_of_eq h.1
        refine List.pairwise_cons.mpr ⟨fun x hx => ?_, sorted⟩
        rcases List.mem_cons.mp hx with rfl | hx
        · exact le
        · exact le.trans (below x hx)
      · rename_i after
        have le : first.1 ≤ entry.1 := by
          by_contra less
          exact after (.inl (Int.not_le.mp less))
        refine List.pairwise_cons.mpr ⟨fun x hx => ?_, ih later fun h =>
          fresh (List.mem_cons_of_mem _ h)⟩
        rcases (List.mem_orderedInsert _).mp hx with rfl | hx
        · exact le
        · exact below x hx

/-- The due set holds exactly one entry for each armed partition, earliest first. -/
structure Paired (heap : ExpiryHeap) : Prop where
  sorted : heap.due.Pairwise fun a b => a.1 ≤ b.1
  nodup : heap.due.Nodup
  pairs : ∀ deadline key, (deadline, key) ∈ heap.due ↔ heap.armed.lookup key = some deadline

structure Topical (heap : ExpiryHeap) : Prop where
  nodup : heap.topics.Nodup
  topics : ∀ topic, topic ∈ heap.topics ↔ ∃ key ∈ heap.armed, key.1 = topic

theorem mem_armed {armed : AList fun _ : PartitionKey => Int} :
    key ∈ armed ↔ ∃ deadline, armed.lookup key = some deadline := by
  rw [← AList.lookup_isSome, Option.isSome_iff_exists]

theorem lookup_erase {armed : AList fun _ : PartitionKey => Int} (other : PartitionKey) :
    (armed.erase key).lookup other = if other = key then none else armed.lookup other := by
  split
  · rename_i same
    rw [same, AList.lookup_erase]
  · rename_i differs
    exact AList.lookup_erase_ne differs

structure Alike (next heap : ExpiryHeap) : Prop where
  topics : next.topicRetentionMs = heap.topicRetentionMs
  retention : next.retentionMs = heap.retentionMs

theorem Alike.refl (heap : ExpiryHeap) : Alike heap heap := ⟨rfl, rfl⟩

theorem Alike.trans {first second third : ExpiryHeap} (h : Alike first second)
    (h' : Alike second third) : Alike first third :=
  ⟨h.topics.trans h'.topics, h.retention.trans h'.retention⟩

theorem Alike.deadline {next heap : ExpiryHeap} (alike : Alike next heap) :
    next.deadline = heap.deadline := by
  funext index key
  unfold ExpiryHeap.deadline
  rw [alike.topics, alike.retention]

theorem alike_track : Alike (self.track index key) self := by
  unfold track
  split
  · exact .refl _
  · split <;> exact ⟨rfl, rfl⟩

theorem lookup_track (other : PartitionKey) : (self.track index key).armed.lookup other =
    if other = key then (self.armed.lookup key).or (self.deadline index key)
    else self.armed.lookup other := by
  unfold track
  split
  · rename_i armed
    obtain ⟨deadline, held⟩ := mem_armed.mp armed
    split
    · rename_i same
      rw [same, held, Option.some_or]
    · rfl
  · rename_i unarmed
    have none_ := AList.lookup_eq_none.mpr unarmed
    split
    · rename_i unknown
      split
      · rename_i same
        rw [same, none_, unknown, Option.none_or]
      · rfl
    · rename_i deadline known
      dsimp only
      rw [Table.alist_lookup_insert_eq]
      split
      · rw [none_, known, Option.none_or]
      · rfl

theorem Paired.track (paired : self.Paired) : (self.track index key).Paired := by
  unfold ExpiryHeap.track
  split
  · exact paired
  · rename_i unarmed
    split
    · exact paired
    · rename_i deadline known
      refine ⟨sorted_insertOrdered paired.sorted, nodup_insertOrdered paired.nodup, ?_⟩
      intro when other
      dsimp only
      rw [mem_insertOrdered, Table.alist_lookup_insert_eq, paired.pairs]
      split
      · rename_i same
        subst same
        rw [AList.lookup_eq_none.mpr unarmed, Prod.mk.injEq, Option.some.injEq]
        constructor
        · rintro (⟨rfl, -⟩ | none_)
          · rfl
          · cases none_
        · rintro rfl
          exact .inl ⟨rfl, rfl⟩
      · rename_i differs
        rw [Prod.mk.injEq]
        exact ⟨fun h => h.resolve_left fun both => differs both.2, .inr⟩

theorem Topical.track (topical : self.Topical) : (self.track index key).Topical := by
  unfold ExpiryHeap.track
  split
  · exact topical
  · split
    · exact topical
    · refine ⟨nodup_insertOrdered topical.nodup, fun topic => ?_⟩
      dsimp only
      rw [mem_insertOrdered, topical.topics]
      constructor
      · rintro (rfl | ⟨held, armed, rfl⟩)
        · exact ⟨key, AList.mem_insert _ |>.mpr (.inl rfl), rfl⟩
        · exact ⟨held, AList.mem_insert _ |>.mpr (.inr armed), rfl⟩
      · rintro ⟨held, armed, rfl⟩
        rcases (AList.mem_insert _).mp armed with rfl | armed
        · exact .inl rfl
        · exact .inr ⟨held, armed, rfl⟩

theorem Paired.disarmed {deadline : Int} (paired : self.Paired)
    (held : self.armed.lookup key = some deadline) {next : ExpiryHeap}
    (armed : next.armed = self.armed.erase key) (due : next.due = self.due.erase (deadline, key)) :
    next.Paired := by
  refine ⟨?_, ?_, fun when other => ?_⟩
  · rw [due]
    exact paired.sorted.sublist (List.erase_sublist ..)
  · rw [due]
    exact paired.nodup.erase _
  · rw [due, armed, lookup_erase, paired.nodup.mem_erase_iff, paired.pairs, ne_eq, Prod.mk.injEq]
    split
    · rename_i same
      subst same
      refine iff_of_false (fun ⟨differs, there⟩ => ?_) nofun
      rw [held] at there
      exact differs ⟨(Option.some.inj there).symm, rfl⟩
    · rename_i differs
      exact ⟨And.right, fun there => ⟨fun both => differs both.2, there⟩⟩

theorem alike_rearm : Alike (self.rearm index key) self := by
  unfold rearm
  refine alike_track.trans ?_
  split <;> exact ⟨rfl, rfl⟩

theorem lookup_rearm (other : PartitionKey) : (self.rearm index key).armed.lookup other =
    if other = key then self.deadline index key else self.armed.lookup other := by
  unfold rearm
  dsimp only
  rw [lookup_track]
  cases held : self.armed.lookup key with
  | none =>
    dsimp only
    rw [held, Option.none_or]
  | some deadline =>
    dsimp only
    rw [AList.lookup_erase, Option.none_or, lookup_erase]
    split <;> rfl

theorem Paired.rearm (paired : self.Paired) : (self.rearm index key).Paired := by
  unfold ExpiryHeap.rearm
  dsimp only
  cases held : self.armed.lookup key with
  | none => exact paired.track
  | some deadline => exact (paired.disarmed held rfl rfl).track

theorem topics_rearm (topic : TopicId) : topic ∈ (self.rearm index key).topics ↔
    topic ∈ self.topics ∨ (topic = key.1 ∧ (self.deadline index key).isSome = true) := by
  have tracked {heap : ExpiryHeap} (unarmed : key ∉ heap.armed) (topics : heap.topics = self.topics)
      (same : heap.deadline = self.deadline) : topic ∈ (heap.track index key).topics ↔
        topic ∈ self.topics ∨ (topic = key.1 ∧ (self.deadline index key).isSome = true) := by
    unfold track
    rw [if_neg unarmed, same]
    cases self.deadline index key with
    | none => simp [topics]
    | some deadline => simp [topics, or_comm]
  unfold rearm
  dsimp only
  cases held : self.armed.lookup key with
  | none => exact tracked (AList.lookup_eq_none.mp held) rfl rfl
  | some deadline =>
    refine tracked (fun there => ?_) rfl rfl
    obtain ⟨when, found⟩ := mem_armed.mp there
    rw [AList.lookup_erase] at found
    cases found

theorem nodup_topics_rearm (nodup : self.topics.Nodup) :
    (self.rearm index key).topics.Nodup := by
  unfold rearm track
  dsimp only
  split
  all_goals
    split
    · exact nodup
    · split
      · exact nodup
      · exact nodup_insertOrdered nodup

/-- Arms several partitions again. -/
def rearmAll (self : ExpiryHeap) (index : IndexState) (keys : List PartitionKey) : ExpiryHeap :=
  keys.foldl (fun heap key => heap.rearm index key) self

/-- What arming several partitions again leaves: each at the deadline it has, if it has one. -/
theorem rearmAll_spec (paired : self.Paired) (nodup : self.topics.Nodup)
    (keys : List PartitionKey) :
    Alike (self.rearmAll index keys) self ∧
      (self.rearmAll index keys).Paired ∧ (self.rearmAll index keys).topics.Nodup ∧
      (∀ other, (self.rearmAll index keys).armed.lookup other =
        if other ∈ keys then self.deadline index other else self.armed.lookup other) ∧
      ∀ topic, topic ∈ (self.rearmAll index keys).topics ↔ topic ∈ self.topics ∨
        ∃ key ∈ keys, topic = key.1 ∧ (self.deadline index key).isSome = true := by
  induction keys generalizing self with
  | nil => exact ⟨.refl _, paired, nodup, by simp [rearmAll], by simp [rearmAll]⟩
  | cons key rest ih =>
    have before : Alike (self.rearm index key) self := alike_rearm
    obtain ⟨alike, pairs, distinct, lookups, topics⟩ := ih paired.rearm (nodup_topics_rearm nodup)
    rw [before.deadline] at lookups topics
    refine ⟨alike.trans before, pairs, distinct, fun other => ?_, fun topic => ?_⟩
    · refine (lookups other).trans ?_
      rw [lookup_rearm]
      by_cases later : other ∈ rest
      · rw [if_pos later, if_pos (List.mem_cons_of_mem _ later)]
      · rw [if_neg later]
        by_cases here : other = key
        · rw [if_pos here, if_pos (here ▸ List.mem_cons_self ..), here]
        · rw [if_neg here, if_neg (by simp [here, later])]
    · refine (topics topic).trans ?_
      rw [topics_rearm, List.exists_mem_cons_iff, or_assoc]

/-- Whether a setting is another than the one in force. -/
def changes (self : ExpiryHeap) (topic : TopicId) (retentionMs : Option Int) : Bool :=
  match retentionMs with
  | some value => decide (self.topicRetentionMs.lookup topic ≠ some value)
  | none => decide (topic ∈ self.topicRetentionMs)

/-- The heap with a setting in force, and no partition armed by it yet. -/
def overridden (self : ExpiryHeap) (topic : TopicId) (retentionMs : Option Int) : ExpiryHeap :=
  { self with
    topicRetentionMs := match retentionMs with
      | some value => self.topicRetentionMs.insert topic value
      | none => self.topicRetentionMs.erase topic }

theorem setTopicRetention_eq {topic : TopicId} {retentionMs : Option Int} :
    self.setTopicRetention index topic retentionMs =
      if self.changes topic retentionMs = true then
        (self.overridden topic retentionMs).rearmAll index
          (self.armed.keys.filter fun key => key.1 = topic)
      else self := by
  have either : ∀ (b : Bool) (x y : ExpiryHeap), (if !b then x else y) = if b = true then y else x := by
    intro b x y
    cases b <;> rfl
  cases retentionMs <;> exact either ..

theorem deadline_overridden {topic : TopicId} {retentionMs : Option Int} (other : key.1 ≠ topic) :
    (self.overridden topic retentionMs).deadline index key = self.deadline index key := by
  have same : (self.overridden topic retentionMs).topicRetentionMs.lookup key.1 =
      self.topicRetentionMs.lookup key.1 := by
    unfold overridden
    cases retentionMs with
    | none => exact AList.lookup_erase_ne other
    | some value => exact AList.lookup_insert_ne other
  unfold deadline
  rw [same]
  rfl

/-- A setting that changes arms the topic's armed partitions anew, and leaves the rest. -/
theorem setTopicRetention_paired (paired : self.Paired) (nodup : self.topics.Nodup)
    {topic : TopicId} {retentionMs : Option Int} (changed : self.changes topic retentionMs = true) :
    Alike (self.setTopicRetention index topic retentionMs) (self.overridden topic retentionMs) ∧
      (self.setTopicRetention index topic retentionMs).Paired ∧
      (self.setTopicRetention index topic retentionMs).topics.Nodup ∧
      (∀ key, (self.setTopicRetention index topic retentionMs).armed.lookup key =
        if key ∈ self.armed ∧ key.1 = topic then (self.overridden topic retentionMs).deadline index key
        else self.armed.lookup key) ∧
      ∀ held, held ∈ (self.setTopicRetention index topic retentionMs).topics ↔ held ∈ self.topics ∨
        ∃ key ∈ self.armed, key.1 = topic ∧ held = key.1 ∧
          ((self.overridden topic retentionMs).deadline index key).isSome = true := by
  have paired' : (self.overridden topic retentionMs).Paired := ⟨paired.sorted, paired.nodup, paired.pairs⟩
  obtain ⟨alike, pairs, distinct, lookups, topics⟩ := @rearmAll_spec _ index paired' nodup
    (self.armed.keys.filter fun key => key.1 = topic)
  rw [setTopicRetention_eq, if_pos changed]
  refine ⟨alike, pairs, distinct, fun key => ?_, fun held => ?_⟩
  · rw [lookups]
    simp only [List.mem_filter, AList.mem_keys, decide_eq_true_eq]
    rfl
  · rw [topics]
    simp only [List.mem_filter, AList.mem_keys, decide_eq_true_eq, and_assoc]
    rfl

/-- What a partition that has come due emits, if the index holds anything of it. -/
def trimOf (index : IndexState) (key : PartitionKey) : MetadataRecord :=
  .trimmed key.1 key.2 (index.endOffset key)

/-- A partition whose deadline has come, and is still the one it is armed at. -/
def Judged (self : ExpiryHeap) (index : IndexState) (now : Nat) (key : PartitionKey) : Prop :=
  ∃ deadline, self.armed.lookup key = some deadline ∧ deadline ≤ (now : Int) ∧
    self.deadline index key = some deadline

instance (now : Nat) : Decidable (self.Judged index now key) :=
  decidable_of_iff ((self.armed.lookup key).any
    (fun deadline => decide (deadline ≤ (now : Int) ∧ self.deadline index key = some deadline)) = true) (by
      unfold Judged
      simp [Option.any_eq_true])

theorem topical_disarm (topical : self.Topical) : (self.disarm key).Topical := by
  unfold disarm
  dsimp only
  refine ⟨?_, fun topic => ?_⟩
  · dsimp only
    split
    · exact topical.nodup
    · exact topical.nodup.erase _
  · have left : ∀ held, held ∈ self.armed.erase key ↔ held ≠ key ∧ held ∈ self.armed :=
      fun held => AList.mem_erase
    simp only [left]
    split
    · rename_i another
      obtain ⟨other, hother, same⟩ := List.any_eq_true.mp another
      rw [← AList.mem_keys, left] at hother
      rw [topical.topics]
      constructor
      · rintro ⟨held, armed, rfl⟩
        by_cases here : held = key
        · exact ⟨other, hother, by rw [here]; exact of_decide_eq_true same⟩
        · exact ⟨held, ⟨here, armed⟩, rfl⟩
      · rintro ⟨held, ⟨-, armed⟩, rfl⟩
        exact ⟨held, armed, rfl⟩
    · rename_i last
      have alone : ∀ held, held ≠ key → held ∈ self.armed → held.1 ≠ key.1 := by
        intro held differs armed same
        refine last (List.any_eq_true.mpr ⟨held, ?_, decide_eq_true same⟩)
        rw [← AList.mem_keys, left]
        exact ⟨differs, armed⟩
      rw [topical.nodup.mem_erase_iff, topical.topics]
      constructor
      · rintro ⟨differs, held, armed, rfl⟩
        exact ⟨held, ⟨fun here => differs (by rw [here]), armed⟩, rfl⟩
      · rintro ⟨held, ⟨other, armed⟩, rfl⟩
        exact ⟨alone held other armed, held, armed, rfl⟩

variable {now : Nat}

/-- An entry that has come due is its partition's armed one: it is taken out, and the
partition trimmed or put by to be armed again. -/
theorem pop_spec {popping : Popping} {deadline : Int}
    (held : popping.heap.armed.lookup key = some deadline) :
    ∃ count, (popping.pop index (deadline, key)).heap =
        ({ popping.heap with popped := count } : ExpiryHeap).disarm key ∧
      (∀ record, record ∈ (popping.pop index (deadline, key)).trims ↔ record ∈ popping.trims ∨
        (popping.heap.deadline index key = some deadline ∧
          index.logStart key < index.endOffset key ∧ record = trimOf index key)) ∧
      ∀ other, other ∈ (popping.pop index (deadline, key)).rearm ↔ other ∈ popping.rearm ∨
        (popping.heap.deadline index key ≠ some deadline ∧ other = key) := by
  refine ⟨popping.heap.popped + 1, ?_⟩
  unfold Popping.pop
  dsimp only
  rw [if_neg (not_not.mpr held)]
  have same : ({ popping.heap with popped := popping.heap.popped + 1 } : ExpiryHeap).deadline index key =
      popping.heap.deadline index key := rfl
  rw [same]
  split
  · rename_i agrees
    refine ⟨rfl, fun record => ?_, fun other => ?_⟩
    · dsimp only
      split
      · rename_i some_
        simp [agrees, some_, trimOf]
      · rename_i empty
        simp [empty]
    · simp [agrees]
  · rename_i moved
    refine ⟨rfl, fun record => ?_, fun other => ?_⟩
    · simp [moved]
    · simp [moved]

/-- What popping what has come due leaves: every partition whose deadline has come is out, and
trimmed if that is its deadline still or put by to be armed again if not; no other is. -/
structure PopsDue (index : IndexState) (now : Nat) (popping after : Popping) : Prop where
  paired : after.heap.Paired
  topical : popping.heap.Topical → after.heap.Topical
  alike : Alike after.heap popping.heap
  lookups : ∀ key, after.heap.armed.lookup key =
    (popping.heap.armed.lookup key).filter fun deadline => decide ((now : Int) < deadline)
  trims : ∀ record, record ∈ after.trims ↔ record ∈ popping.trims ∨
    ∃ key, popping.heap.Judged index now key ∧ index.logStart key < index.endOffset key ∧
      record = trimOf index key
  rearm : ∀ key, key ∈ after.rearm ↔ key ∈ popping.rearm ∨
    ∃ deadline, popping.heap.armed.lookup key = some deadline ∧ deadline ≤ (now : Int) ∧
      popping.heap.deadline index key ≠ some deadline

/-- Where every armed deadline is still to come, there is nothing to pop. -/
theorem PopsDue.of_ahead {popping : Popping} (paired : popping.heap.Paired)
    (ahead : ∀ key deadline, popping.heap.armed.lookup key = some deadline →
      (now : Int) < deadline) : PopsDue index now popping popping where
  paired := paired
  topical := id
  alike := .refl _
  lookups := by
    intro key
    cases held : popping.heap.armed.lookup key with
    | none => rfl
    | some deadline => rw [Option.filter_some, if_pos (decide_eq_true (ahead key deadline held))]
  trims := by
    refine fun record => ⟨.inl, ?_⟩
    rintro (before | ⟨key, ⟨deadline, held, due, -⟩, -⟩)
    · exact before
    · exact absurd (ahead key deadline held) (not_lt.mpr due)
  rearm := by
    refine fun key => ⟨.inl, ?_⟩
    rintro (before | ⟨deadline, held, due, -⟩)
    · exact before
    · exact absurd (ahead key deadline held) (not_lt.mpr due)

theorem Paired.ahead {heap : ExpiryHeap} (paired : heap.Paired) {deadline : Int}
    {rest : List Expiry} (same : heap.due = (deadline, key) :: rest)
    (later : (now : Int) < deadline) :
    ∀ other when, heap.armed.lookup other = some when → (now : Int) < when := by
  intro other when held
  have there := (paired.pairs when other).mpr held
  have sorted := paired.sorted
  rw [same] at there sorted
  rcases List.mem_cons.mp there with here | there
  · cases here
    exact later
  · exact lt_of_lt_of_le later ((List.pairwise_cons.mp sorted).1 _ there)

/-- Popping the first that has come due, and then what is due of the rest. -/
theorem PopsDue.cons {popping after : Popping} {deadline : Int} {rest : List Expiry}
    (held : popping.heap.armed.lookup key = some deadline) (due : deadline ≤ (now : Int))
    (popped : PopsDue index now
      (({ popping with heap := { popping.heap with due := rest } } : Popping).pop index
        (deadline, key)) after) : PopsDue index now popping after := by
  obtain ⟨count, heap, trims, rearm⟩ := @pop_spec index key
    { popping with heap := { popping.heap with due := rest } } deadline held
  have armed : ∀ other, (({ popping with heap := { popping.heap with due := rest } } :
      Popping).pop index (deadline, key)).heap.armed.lookup other =
        if other = key then none else popping.heap.armed.lookup other := by
    intro other
    rw [heap]
    exact lookup_erase other
  have before : Alike (({ popping with heap := { popping.heap with due := rest } } :
      Popping).pop index (deadline, key)).heap popping.heap := by
    rw [heap]
    exact ⟨rfl, rfl⟩
  refine ⟨popped.paired, fun was => popped.topical ?_, popped.alike.trans before, fun other => ?_,
    fun record => ?_, fun other => ?_⟩
  · rw [heap]
    exact topical_disarm ⟨was.nodup, was.topics⟩
  · rw [popped.lookups, armed]
    split
    · rename_i here
      rw [here, held, Option.filter_some, if_neg (by simpa using due)]
      rfl
    · rfl
  · rw [popped.trims, trims, or_assoc]
    refine or_congr Iff.rfl ?_
    constructor
    · rintro (⟨agrees, some_, rfl⟩ | ⟨other, ⟨when, there, come, agrees⟩, some_, rfl⟩)
      · exact ⟨key, ⟨deadline, held, due, agrees⟩, some_, rfl⟩
      · rw [armed] at there
        split at there
        · cases there
        · rw [before.deadline] at agrees
          exact ⟨other, ⟨when, there, come, agrees⟩, some_, rfl⟩
    · rintro ⟨other, ⟨when, there, come, agrees⟩, some_, rfl⟩
      by_cases here : other = key
      · subst here
        rw [held] at there
        cases there
        exact .inl ⟨agrees, some_, rfl⟩
      · refine .inr ⟨other, ⟨when, ?_, come, by rw [before.deadline]; exact agrees⟩, some_, rfl⟩
        rw [armed, if_neg here]
        exact there
  · rw [popped.rearm, rearm, or_assoc]
    refine or_congr Iff.rfl ?_
    constructor
    · rintro (⟨moved, rfl⟩ | ⟨when, there, come, moved⟩)
      · exact ⟨deadline, held, due, moved⟩
      · rw [armed] at there
        split at there
        · cases there
        · rw [before.deadline] at moved
          exact ⟨when, there, come, moved⟩
    · rintro ⟨when, there, come, moved⟩
      by_cases here : other = key
      · subst here
        rw [held] at there
        cases there
        exact .inl ⟨moved, rfl⟩
      · refine .inr ⟨when, ?_, come, by rw [before.deadline]; exact moved⟩
        rw [armed, if_neg here]
        exact there

/-- The loop takes out every partition whose deadline has come, and no other. -/
theorem popDue_spec {entries : List Expiry} {popping : Popping} (paired : popping.heap.Paired)
    (same : popping.heap.due = entries) :
    PopsDue index now popping (popDue index now entries popping) := by
  induction entries generalizing popping with
  | nil =>
    refine .of_ahead paired fun key deadline held => ?_
    have there := (paired.pairs deadline key).mpr held
    rw [same] at there
    cases there
  | cons entry rest ih =>
    obtain ⟨deadline, key⟩ := entry
    unfold popDue
    dsimp only
    split
    · rename_i later
      exact .of_ahead paired (paired.ahead same later)
    · rename_i due
      have held : popping.heap.armed.lookup key = some deadline :=
        (paired.pairs deadline key).mp (by rw [same]; exact List.mem_cons_self ..)
      obtain ⟨count, heap, -⟩ := @pop_spec index key
        { popping with heap := { popping.heap with due := rest } } deadline held
      have pairs : (({ popping with heap := { popping.heap with due := rest } } : Popping).pop index
          (deadline, key)).heap.Paired := by
        rw [heap]
        refine paired.disarmed held rfl ?_
        rw [same, List.erase_cons_head]
        rfl
      exact (ih pairs (by rw [heap]; rfl)).cons held (not_lt.mp due)

/-- Tracking several partitions arms those that are not armed and can be judged. -/
theorem trackAll_spec (paired : self.Paired) (keys : List PartitionKey) :
    Alike (keys.foldl (fun heap key => heap.track index key) self) self ∧
      (keys.foldl (fun heap key => heap.track index key) self).Paired ∧
      (self.Topical → (keys.foldl (fun heap key => heap.track index key) self).Topical) ∧
      ∀ other, (keys.foldl (fun heap key => heap.track index key) self).armed.lookup other =
        if other ∈ keys then (self.armed.lookup other).or (self.deadline index other)
        else self.armed.lookup other := by
  induction keys generalizing self with
  | nil => exact ⟨.refl _, paired, id, by simp⟩
  | cons key rest ih =>
    have before : Alike (self.track index key) self := alike_track
    obtain ⟨alike, pairs, topical, lookups⟩ := ih paired.track
    rw [before.deadline] at lookups
    refine ⟨alike.trans before, pairs, fun was => topical was.track, fun other => ?_⟩
    refine (lookups other).trans ?_
    rw [lookup_track]
    by_cases here : other = key
    · subst here
      rw [if_pos rfl, if_pos (List.mem_cons_self ..), Option.or_assoc, Option.or_self]
      split <;> rfl
    · simp [here]

/-- What a round leaves: a partition still to come as it was, one trimmed unarmed, and one
written to since at the deadline it has now. -/
theorem dueAt_paired (paired : self.Paired) :
    Alike (self.dueAt index now).1 self ∧ (self.dueAt index now).1.Paired ∧
      (self.Topical → (self.dueAt index now).1.Topical) ∧
      (∀ key, (self.dueAt index now).1.armed.lookup key =
        (self.armed.lookup key).bind fun deadline =>
          if (now : Int) < deadline then some deadline
          else if self.deadline index key = some deadline then none
          else self.deadline index key) ∧
      ∀ record, record ∈ (self.dueAt index now).2 ↔ ∃ key, self.Judged index now key ∧
        index.logStart key < index.endOffset key ∧ record = trimOf index key := by
  obtain ⟨pairs, topical, alike, lookups, trims, rearm⟩ := @popDue_spec index now self.due
    { heap := { self with popped := 0 } } ⟨paired.sorted, paired.nodup, paired.pairs⟩ rfl
  obtain ⟨alike', pairs', topical', lookups'⟩ := @trackAll_spec _ index pairs
    (popDue index now self.due { heap := { self with popped := 0 } }).rearm
  refine ⟨alike'.trans ⟨alike.topics, alike.retention⟩, pairs', fun before => topical' (topical ⟨before.nodup, before.topics⟩),
    fun key => ?_, fun record => ?_⟩
  · refine (lookups' key).trans ?_
    rw [alike.deadline, lookups]
    have again := rearm key
    simp only [List.not_mem_nil, false_or] at again
    dsimp only at again ⊢
    cases held : self.armed.lookup key with
    | none =>
      rw [if_neg fun there => ?_]
      · rfl
      · obtain ⟨deadline, armed, -⟩ := again.mp there
        exact nomatch held.symm.trans armed
    | some deadline =>
      rw [Option.bind_some, Option.filter_some]
      by_cases ahead : (now : Int) < deadline
      · rw [if_pos (decide_eq_true ahead), if_pos ahead, Option.some_or, ite_self]
      · have come : ¬decide ((now : Int) < deadline) = true := by simpa using ahead
        rw [if_neg come, if_neg ahead, Option.none_or]
        by_cases agrees : self.deadline index key = some deadline
        · rw [if_pos agrees, if_neg fun there => ?_]
          obtain ⟨when, armed, -, moved⟩ := again.mp there
          rw [held] at armed
          cases armed
          exact moved agrees
        · rw [if_neg agrees, if_pos (again.mpr ⟨deadline, held, not_lt.mp ahead, agrees⟩)]
          rfl
  · refine (trims record).trans ?_
    simp only [List.not_mem_nil, false_or]
    rfl

end ExpiryHeap

end Oqueue
