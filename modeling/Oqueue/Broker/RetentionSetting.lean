import Oqueue.Broker.RetentionIndex

/-!
# What retention a trim waits out

A rebuild starts a heap that knows no topic's own setting, and a read of one may fail. Until
the first that does not, the topic's partitions are judged by the default.
-/

namespace Oqueue

open Checked

namespace ExpiryHeap

variable {heap other : ExpiryHeap} {index : IndexState}

/-- Two heaps that judge every partition alike. -/
structure Agrees (heap other : ExpiryHeap) : Prop where
  default : other.retentionMs = heap.retentionMs
  overrides : other.topicRetentionMs = heap.topicRetentionMs

theorem Agrees.refl (heap : ExpiryHeap) : heap.Agrees heap := ⟨rfl, rfl⟩

theorem Agrees.trans {last : ExpiryHeap} (first : heap.Agrees other) (second : other.Agrees last) :
    heap.Agrees last :=
  ⟨second.default.trans first.default, second.overrides.trans first.overrides⟩

theorem Agrees.deadline (agrees : heap.Agrees other) (key : PartitionKey) :
    other.deadline index key = heap.deadline index key := by
  unfold ExpiryHeap.deadline
  rw [agrees.default, agrees.overrides]

theorem agrees_track (heap : ExpiryHeap) (index : IndexState) (key : PartitionKey) :
    heap.Agrees (heap.track index key) := by
  unfold track
  split
  · exact .refl heap
  · split
    · exact .refl heap
    · exact ⟨rfl, rfl⟩

theorem agrees_rearm (heap : ExpiryHeap) (index : IndexState) (key : PartitionKey) :
    heap.Agrees (heap.rearm index key) := by
  unfold rearm
  dsimp only
  split
  · exact agrees_track heap index key
  · rename_i deadline _
    have disarmed : heap.Agrees { heap with
        armed := heap.armed.erase key, due := heap.due.erase (deadline, key) } := ⟨rfl, rfl⟩
    exact disarmed.trans (agrees_track _ index key)

theorem agrees_foldl {f : ExpiryHeap → PartitionKey → ExpiryHeap}
    (each : ∀ (heap : ExpiryHeap) key, heap.Agrees (f heap key)) (keys : List PartitionKey) (heap : ExpiryHeap) :
    heap.Agrees (keys.foldl f heap) :=
  List.foldlRecOn (motive := heap.Agrees) keys f (.refl heap)
    fun _ held key _ => held.trans (each _ key)

/-- The trims of a round so far are of partitions whose deadline had passed. -/
structure Popping.Due (heap : ExpiryHeap) (index : IndexState) (now : Nat) (popping : Popping) :
    Prop where
  agrees : heap.Agrees popping.heap
  armed : ∀ key deadline, popping.heap.armed.lookup key = some deadline →
    heap.armed.lookup key = some deadline
  due : ∀ record ∈ popping.trims, ∃ key deadline, heap.armed.lookup key = some deadline ∧
    heap.deadline index key = some deadline ∧ deadline ≤ now ∧
      index.logStart key < index.endOffset key ∧
      record = .trimmed key.1 key.2 (index.endOffset key)

theorem Popping.Due.pop {now : Nat} {popping : Popping} (due : popping.Due heap index now)
    {entry : Expiry} (passed : entry.1 ≤ now) : (popping.pop index entry).Due heap index now := by
  have disarmed : heap.Agrees
      (({ popping.heap with popped := popping.heap.popped + 1 } : ExpiryHeap).disarm entry.2) :=
    due.agrees.trans ⟨rfl, rfl⟩
  have kept : ∀ key deadline, (popping.heap.armed.erase entry.2).lookup key = some deadline →
      heap.armed.lookup key = some deadline := by
    intro key deadline held
    by_cases same : key = entry.2
    · rw [same, AList.lookup_erase] at held
      cases held
    · rw [AList.lookup_erase_ne same] at held
      exact due.armed key deadline held
  unfold Popping.pop
  dsimp only
  split
  · exact ⟨due.agrees.trans ⟨rfl, rfl⟩, due.armed, due.due⟩
  · rename_i armed
    have armed : popping.heap.armed.lookup entry.2 = some entry.1 := not_not.mp armed
    split
    · rename_i agreed
      refine ⟨disarmed, kept, ?_⟩
      dsimp only
      split
      · rename_i holds
        intro record among
        rcases List.mem_append.mp among with among | among
        · exact due.due record among
        · rw [List.mem_singleton] at among
          have counted : heap.Agrees { popping.heap with popped := popping.heap.popped + 1 } :=
            due.agrees.trans ⟨rfl, rfl⟩
          exact ⟨entry.2, entry.1, due.armed _ _ armed,
            (counted.deadline entry.2).symm.trans agreed, passed, holds, among⟩
      · exact due.due
    · exact ⟨disarmed, kept, due.due⟩

theorem Popping.Due.popDue {now : Nat} {popping : Popping} (due : popping.Due heap index now)
    (entries : List Expiry) : (popDue index now entries popping).Due heap index now := by
  induction entries generalizing popping with
  | nil => exact due
  | cons entry rest ih =>
    unfold ExpiryHeap.popDue
    split
    · exact due
    · rename_i passed
      have held : ({ popping with heap := { popping.heap with due := rest } } : Popping).Due
          heap index now := ⟨due.agrees.trans ⟨rfl, rfl⟩, due.armed, due.due⟩
      exact ih (held.pop (not_lt.mp passed))

theorem dueAt_spec (heap : ExpiryHeap) (index : IndexState) (now : Nat) :
    heap.Agrees (heap.dueAt index now).1 ∧ ∀ record ∈ (heap.dueAt index now).2,
      ∃ key deadline, heap.armed.lookup key = some deadline ∧
        heap.deadline index key = some deadline ∧ deadline ≤ now ∧
        index.logStart key < index.endOffset key ∧
        record = .trimmed key.1 key.2 (index.endOffset key) := by
  have start : Popping.Due heap index now { heap := { heap with popped := 0 } } :=
    ⟨⟨rfl, rfl⟩, fun _ _ held => held, nofun⟩
  have popped := start.popDue heap.due
  exact ⟨popped.agrees.trans (agrees_foldl (fun heap => agrees_track heap index) _ _), popped.due⟩

/-- A topic's retention is applied whether or not it changes. -/
theorem setTopicRetention_spec (heap : ExpiryHeap) (index : IndexState) (topic : TopicId)
    (retentionMs : Option Int) :
    (heap.setTopicRetention index topic retentionMs).retentionMs = heap.retentionMs ∧
      ∀ asked, (heap.setTopicRetention index topic retentionMs).topicRetentionMs.lookup asked =
        if asked = topic then retentionMs else heap.topicRetentionMs.lookup asked := by
  have rearmed (held : ExpiryHeap) (keys : List PartitionKey) :=
    agrees_foldl (fun heap => agrees_rearm heap index) keys held
  cases retentionMs with
  | none =>
    unfold setTopicRetention
    dsimp only
    split
    · rename_i unset
      refine ⟨rfl, fun asked => ?_⟩
      split
      · rename_i same
        rw [same]
        exact AList.lookup_eq_none.mpr (by simpa using unset)
      · rfl
    · rw [(rearmed _ _).default, (rearmed _ _).overrides]
      refine ⟨rfl, fun asked => ?_⟩
      split
      · rename_i same
        rw [same, AList.lookup_erase]
      · rename_i differs
        rw [AList.lookup_erase_ne differs]
  | some value =>
    unfold setTopicRetention
    dsimp only
    split
    · rename_i already
      refine ⟨rfl, fun asked => ?_⟩
      split
      · rename_i same
        rw [same]
        simpa using already
      · rfl
    · rw [(rearmed _ _).default, (rearmed _ _).overrides]
      refine ⟨rfl, fun asked => ?_⟩
      split
      · rename_i same
        rw [same, AList.lookup_insert]
      · rename_i differs
        rw [AList.lookup_insert_ne differs]

end ExpiryHeap

def retentionOf (setting : Option Int) : Int := setting.getD defaultRetentionMs

/-- The topic's setting does not change, however many of its reads fail. -/
def TopicCatalog.Constant (catalog : TopicCatalog) (topic : TopicId) (setting : Option Int) : Prop :=
  ∀ read answer, catalog read topic = .ok answer → answer = setting

/-- If this is a trim of the topic, it drops what a partition held whose newest commit is as
old as the topic's setting asks. -/
def Acted.Waited (acted : Acted) (topic : TopicId) (setting : Option Int) (now : Nat) : Prop :=
  ∀ partition start, acted.action = .trim topic partition start →
    ∃ span, acted.cell.index.timeSpan (topic, partition) = some span ∧
      (span.max : Int) + retentionOf setting ≤ now ∧
      start = acted.cell.index.endOffset (topic, partition)

namespace Retention

variable {catalog : TopicCatalog} {topic : TopicId} {setting : Option Int} {task : Retention}

/-- The heap has the topic's setting, or for want of it the default. -/
structure Judges (topic : TopicId) (setting : Option Int) (task : Retention) : Prop where
  default : task.heap.retentionMs = defaultRetentionMs
  override : ∀ value, task.heap.topicRetentionMs.lookup topic = some value → setting = some value

/-- The heap does not judge the topic by a default shorter than its setting. -/
def Informed (topic : TopicId) (setting : Option Int) (task : Retention) : Prop :=
  task.heap.topicRetentionMs.lookup topic = setting ∨ retentionOf setting ≤ defaultRetentionMs

/-- The task as a round finds it before it pops the heap. -/
def beforePop (catalog : TopicCatalog) (self : Retention) (round : Round) : Retention :=
  (if self.synced then self else self.rebuild catalog round.rebuilds).reconcileConfigurations catalog

/-- A partition of the topic is armed, and its deadline has passed. -/
def Expiring (topic : TopicId) (now : Nat) (task : Retention) : Prop :=
  ∃ partition deadline, task.heap.armed.lookup (topic, partition) = some deadline ∧
    deadline ≤ now

/-- A round that pops a partition of the topic has read the topic's setting since the heap
was rebuilt. -/
def InformedAt (catalog : TopicCatalog) (topic : TopicId) (setting : Option Int)
    (self : Retention) : RetentionEvent → Prop
  | .tick round => (self.beforePop catalog round).synced = true →
    (self.beforePop catalog round).lifecycle.admits = true →
      (self.beforePop catalog round).Expiring topic round.now →
        (self.beforePop catalog round).Informed topic setting
  | _ => True

namespace Judges

theorem agrees (judges : task.Judges topic setting) {after : Retention}
    (agrees : task.heap.Agrees after.heap) : after.Judges topic setting where
  default := agrees.default.trans judges.default
  override := by
    rw [agrees.overrides]
    exact judges.override

theorem configure (judges : task.Judges topic setting) (constant : catalog.Constant topic setting)
    (asked : TopicId) : (task.configure catalog asked).Judges topic setting := by
  unfold Retention.configure
  cases answer : catalog task.catalogReads asked with
  | error error => exact ⟨judges.default, judges.override⟩
  | ok retentionMs =>
    obtain ⟨same, applied⟩ := task.heap.setTopicRetention_spec task.cell.index asked retentionMs
    refine ⟨same.trans judges.default, fun value there => ?_⟩
    dsimp only at there
    rw [applied topic] at there
    split at there
    · rename_i here
      rw [← constant _ _ (here ▸ answer), there]
    · exact judges.override value there

theorem foldl {ι : Type} {f : Retention → ι → Retention}
    (judges : task.Judges topic setting)
    (each : ∀ self : Retention, self.Judges topic setting → ∀ item, (f self item).Judges topic setting)
    (items : List ι) :
    (items.foldl f task).Judges topic setting :=
  List.foldlRecOn (motive := fun self => self.Judges topic setting) items f judges
    fun _ held item _ => each _ held item

theorem arm (constant : catalog.Constant topic setting) (judges : task.Judges topic setting)
    (entry : MetadataEntry) : (task.arm catalog entry).Judges topic setting := by
  unfold Retention.arm
  split
  · refine judges.foldl (fun self held span => ?_) _
    exact (held.configure constant span.topic).agrees (ExpiryHeap.agrees_track ..)
  · exact judges.configure constant _
  · exact judges

theorem rebuildPages (constant : catalog.Constant topic setting) {reads : List LogRead}
    {start : Nat} (judges : task.Judges topic setting) :
    (Retention.rebuildPages catalog reads start task).Judges topic setting := by
  fun_induction Retention.rebuildPages catalog reads start task with
  | case6 next reads start self mid page hread last hlast start' hadvance held hfold ih =>
    apply ih
    have folded : ({ self with toShared := held } : Retention).Judges topic setting :=
      ⟨judges.default, judges.override⟩
    exact folded.foldl (fun _ held entry => arm constant held entry) page
  | _ => exact ⟨judges.default, judges.override⟩

theorem rebuild (constant : catalog.Constant topic setting) (task : Retention)
    (reads : List LogRead) : (task.rebuild catalog reads).Judges topic setting :=
  @rebuildPages _ _ _ task.forgotten constant reads _ ⟨rfl, nofun⟩

theorem fold (constant : catalog.Constant topic setting) (judges : task.Judges topic setting)
    (entry : MetadataEntry) (reads : List LogRead) :
    (task.fold catalog entry reads).Judges topic setting := by
  unfold Retention.fold
  split
  · exact judges
  · split
    · exact rebuild constant task reads
    · rename_i shared _
      have folded : ({ task with toShared := shared } : Retention).Judges topic setting :=
        ⟨judges.default, judges.override⟩
      exact arm constant folded entry

theorem reconcileConfigurations (constant : catalog.Constant topic setting)
    (judges : task.Judges topic setting) :
    (task.reconcileConfigurations catalog).Judges topic setting := by
  unfold Retention.reconcileConfigurations
  dsimp only
  split
  · exact judges.agrees (.refl task.heap)
  · have read := judges.foldl (fun _ held asked => held.configure constant asked)
      (task.heap.topicsAfter task.reconciliationCursor configReconciliationBatch)
    exact read.agrees (.refl _)

theorem beforePop (constant : catalog.Constant topic setting) (judges : task.Judges topic setting)
    (round : Round) : (task.beforePop catalog round).Judges topic setting := by
  unfold Retention.beforePop
  split
  · exact judges.reconcileConfigurations constant
  · exact (rebuild constant task round.rebuilds).reconcileConfigurations constant

/-- With the setting, or a default no shorter, no deadline is earlier than the setting's. -/
theorem deadline (judges : task.Judges topic setting) (informed : task.Informed topic setting)
    {index : IndexState} {partition : Nat} {deadline : Int}
    (judged : task.heap.deadline index (topic, partition) = some deadline) :
    ∃ span, index.timeSpan (topic, partition) = some span ∧
      (span.max : Int) + retentionOf setting ≤ deadline := by
  obtain ⟨span, there, judged⟩ := Option.bind_eq_some_iff.mp judged
  refine ⟨span, there, ?_⟩
  split at judged
  · cases judged
  · unfold checkedAddI64 at judged
    split at judged
    · cases judged
      have longer : retentionOf setting ≤
          (task.heap.topicRetentionMs.lookup topic).getD task.heap.retentionMs := by
        rw [judges.default]
        rcases informed with same | shorter
        · rw [same]
          exact le_rfl
        · cases held : task.heap.topicRetentionMs.lookup topic with
          | none => exact shorter
          | some value =>
            rw [judges.override value held]
            exact le_rfl
      exact Int.add_le_add_left longer _
    · cases judged

end Judges

theorem trim_spec (self : Retention) (answer : TrimAnswer) (topic : TopicId) (partition start : Nat) :
    self.heap.Agrees (self.trim answer topic partition start).1.heap ∧
      (self.trim answer topic partition start).1.cell = self.cell ∧
      (self.trim answer topic partition start).1.acted =
        self.acted ++ [⟨.trim topic partition start, self.cell⟩] := by
  unfold Retention.trim
  dsimp only
  split
  · exact ⟨.refl self.heap, rfl, rfl⟩
  · exact ⟨.refl self.heap, rfl, rfl⟩
  · exact ⟨ExpiryHeap.agrees_track .., rfl, rfl⟩

/-- What a round journals is what it was given, on the index it was given it for. -/
theorem trimEach_spec (answers : Nat → TrimAnswer) (made : Nat) (trims : List MetadataRecord)
    (self : Retention) :
    self.heap.Agrees (trimEach answers made trims self).1.heap ∧
      (trimEach answers made trims self).1.cell = self.cell ∧
      ∃ journaled, (trimEach answers made trims self).1.acted = self.acted ++ journaled ∧
        ∀ acted ∈ journaled, ∃ topic partition start, .trimmed topic partition start ∈ trims ∧
          acted = ⟨.trim topic partition start, self.cell⟩ := by
  fun_induction Retention.trimEach answers made trims self with
  | case1 made self =>
    exact ⟨.refl self.heap, rfl, [], (List.append_nil _).symm,
      fun _ among => absurd among List.not_mem_nil⟩
  | case2 made topic partition start rest self after htrim =>
    obtain ⟨agrees, cell, acted⟩ := self.trim_spec (answers made) topic partition start
    rw [htrim] at agrees cell acted
    refine ⟨agrees, cell, _, acted, fun made among => ?_⟩
    rw [List.mem_singleton] at among
    exact ⟨topic, partition, start, List.mem_cons_self .., among⟩
  | case3 made topic partition start rest self after htrim ih =>
    obtain ⟨agrees, cell, acted⟩ := self.trim_spec (answers made) topic partition start
    rw [htrim] at agrees cell acted
    obtain ⟨agrees', cell', journaled, acted', each⟩ := ih
    refine ⟨agrees.trans agrees', cell'.trans cell,
      ⟨.trim topic partition start, self.cell⟩ :: journaled, ?_, fun made among => ?_⟩
    · rw [acted', acted, List.append_assoc]
      rfl
    · rcases List.mem_cons.mp among with rfl | among
      · exact ⟨topic, partition, start, List.mem_cons_self .., rfl⟩
      · obtain ⟨topic, partition, start, given, rfl⟩ := each made among
        exact ⟨topic, partition, start, List.mem_cons_of_mem _ given, by rw [cell]⟩
  | case4 made record rest self notTrim ih =>
    obtain ⟨agrees, cell, journaled, acted, each⟩ := ih
    refine ⟨agrees, cell, journaled, acted, fun made among => ?_⟩
    obtain ⟨topic, partition, start, given, same⟩ := each made among
    exact ⟨topic, partition, start, List.mem_cons_of_mem _ given, same⟩

theorem trimExpired_spec (judges : task.Judges topic setting) (round : Round)
    (informed : task.lifecycle.admits = true → task.Expiring topic round.now →
      task.Informed topic setting) :
    (task.trimExpired round).1.Judges topic setting ∧
      ∃ journaled, (task.trimExpired round).1.acted = task.acted ++ journaled ∧
        ∀ acted ∈ journaled, acted.Waited topic setting round.now := by
  unfold Retention.trimExpired
  split
  · rename_i admits
    obtain ⟨agrees, due⟩ := task.heap.dueAt_spec task.cell.index round.now
    obtain ⟨agrees', cell, journaled, acted, each⟩ := trimEach_spec round.trims 0
      (task.heap.dueAt task.cell.index round.now).2
      { task with heap := (task.heap.dueAt task.cell.index round.now).1 }
    refine ⟨judges.agrees (agrees.trans agrees'), journaled, acted, fun made among => ?_⟩
    obtain ⟨_, _, _, given, rfl⟩ := each made among
    obtain ⟨key, deadline, armed, judged, passed, -, same⟩ := due _ given
    cases same
    intro partition start same
    cases same
    obtain ⟨span, there, waited⟩ :=
      judges.deadline (informed admits ⟨key.2, deadline, armed, passed⟩) judged
    exact ⟨span, there, waited.trans passed, rfl⟩
  · exact ⟨judges, [], (List.append_nil _).symm, nofun⟩

theorem acted_rebuildPages (reads : List LogRead) (start : Nat) (self : Retention) :
    (rebuildPages catalog reads start self).acted = self.acted := by
  fun_induction Retention.rebuildPages catalog reads start self with
  | case6 next reads start self mid page hread last hlast start' hadvance held hfold ih =>
    exact ih.trans (frame_foldl (frame_arm catalog) page { self with toShared := held }).acted
  | _ => rfl

theorem acted_rebuild (self : Retention) (reads : List LogRead) :
    (self.rebuild catalog reads).acted = self.acted := acted_rebuildPages reads 0 self.forgotten

theorem acted_fold (self : Retention) (entry : MetadataEntry) (reads : List LogRead) :
    (self.fold catalog entry reads).acted = self.acted := by
  unfold Retention.fold
  split
  · rfl
  · split
    · exact acted_rebuild self reads
    · exact (frame_arm catalog _ entry).acted

/-- What a task does in one step: it adds to what it has done only in a round, and every trim
of the topic it adds has waited. -/
def Waits (topic : TopicId) (setting : Option Int) (event : RetentionEvent)
    (self after : Retention) : Prop :=
  ∃ journaled, after.acted = self.acted ++ journaled ∧ ∀ acted ∈ journaled,
    ∃ round, event = .tick round ∧ acted.Waited topic setting round.now

theorem Waits.still {event : RetentionEvent} {after : Retention}
    (same : after.acted = task.acted) : Waits topic setting event task after :=
  ⟨[], by rw [same, List.append_nil], nofun⟩

theorem Judges.round (constant : catalog.Constant topic setting)
    (judges : task.Judges topic setting) (round : Round)
    (informed : task.InformedAt catalog topic setting (.tick round)) :
    (task.round catalog round).Judges topic setting ∧
      Waits topic setting (.tick round) task (task.round catalog round) := by
  have judges' := judges.beforePop constant round
  have acted : (task.beforePop catalog round).acted = task.acted := by
    unfold Retention.beforePop
    rw [(frame_reconcileConfigurations catalog _).acted]
    split
    · rfl
    · exact acted_rebuild task round.rebuilds
  have synced := (frame_reconcileConfigurations catalog
    (if task.synced then task else task.rebuild catalog round.rebuilds)).synced
  unfold InformedAt at informed
  dsimp only at informed
  unfold Retention.beforePop at judges' acted informed
  unfold Retention.round
  rw [synced] at informed
  generalize held_ : (if task.synced then task else task.rebuild catalog round.rebuilds) = held
    at judges' acted informed
  dsimp only
  split
  · have before : held.Judges topic setting := by
      rw [← held_]
      split
      · exact judges
      · exact rebuild constant task round.rebuilds
    have same := (frame_reconcileConfigurations catalog held).acted
    exact ⟨before, .still (same.symm.trans acted)⟩
  · rename_i synced
    obtain ⟨trimmed, journaled, added, waited⟩ :=
      trimExpired_spec judges' round (informed (by simpa using synced))
    cases result : (held.reconcileConfigurations catalog).trimExpired round with
    | mk after going =>
    rw [result] at trimmed added
    rw [acted] at added
    cases going with
    | false =>
      refine ⟨⟨trimmed.default, trimmed.override⟩, journaled, added, fun made among => ?_⟩
      exact ⟨round, rfl, waited made among⟩
    | true =>
      refine ⟨⟨trimmed.default, trimmed.override⟩, journaled ++ [⟨.sweep, after.cell⟩], ?_, ?_⟩
      · rw [← List.append_assoc, ← added]
        rfl
      · intro made among
        rcases List.mem_append.mp among with among | among
        · exact ⟨round, rfl, waited made among⟩
        · rw [List.mem_singleton] at among
          refine ⟨round, rfl, fun partition start same => ?_⟩
          rw [among] at same
          cases same

theorem Judges.step (constant : catalog.Constant topic setting)
    (judges : task.Judges topic setting) {event : RetentionEvent}
    (informed : task.InformedAt catalog topic setting event) :
    (task.step catalog event).Judges topic setting ∧
      Waits topic setting event task (task.step catalog event) := by
  unfold Retention.step
  split
  · exact ⟨judges, .still rfl⟩
  · cases event with
    | delta entry reads => exact ⟨judges.fold constant entry reads, .still (acted_fold ..)⟩
    | lagged reads => exact ⟨rebuild constant task reads, .still (acted_rebuild ..)⟩
    | tick round => exact judges.round constant round informed
    | closed => exact ⟨⟨judges.default, judges.override⟩, .still rfl⟩
    | appended entries => exact ⟨⟨judges.default, judges.override⟩, .still rfl⟩

theorem Judges.run (constant : catalog.Constant topic setting) (reads : List LogRead)
    {events : List RetentionEvent}
    (informed : ∀ before event after, events = before ++ event :: after →
      (task.run catalog reads before).InformedAt catalog topic setting event) :
    (task.run catalog reads events).Judges topic setting := by
  induction events using List.reverseRecOn with
  | nil => exact rebuild constant task reads
  | append_singleton before event ih =>
    have judges := ih fun earlier event' after split_ =>
      informed earlier event' (after ++ [event]) (by rw [split_]; simp)
    unfold Retention.run
    rw [List.foldl_append]
    exact (judges.step constant (informed before event [] rfl)).1

/-- As long as no round pops the topic out of a heap that lacks its setting, longer than the
default, every trim of the topic waits the setting out. -/
theorem trims_waited (task : Retention) (constant : catalog.Constant topic setting)
    (reads : List LogRead) (events : List RetentionEvent)
    (informed : ∀ before event after, events = before ++ event :: after →
      (task.run catalog reads before).InformedAt catalog topic setting event) :
    (task.run catalog reads []).acted = task.acted ∧
      ∀ before event after, events = before ++ event :: after → Waits topic setting event
        (task.run catalog reads before) (task.run catalog reads (before ++ [event])) := by
  refine ⟨acted_rebuild task reads, ?_⟩
  rintro before event after rfl
  have judges : (task.run catalog reads before).Judges topic setting := by
    refine .run constant reads fun earlier event' between split_ => ?_
    exact informed earlier event' (between ++ event :: after) (by rw [split_]; simp)
  have stepped := judges.step constant (informed before event after rfl)
  have ran : task.run catalog reads (before ++ [event]) =
      (task.run catalog reads before).step catalog event := by
    unfold Retention.run
    rw [List.foldl_append]
    rfl
  rw [ran]
  exact stepped.2

/-- A catalog that keeps a topic's data for twice the default, and answers its first reads. -/
def doubled (answered : Nat) : TopicCatalog := fun read _ =>
  if read < answered then .ok (some 1209600000) else .error .transient

theorem constant_doubled (answered : Nat) (topic : TopicId) :
    (doubled answered).Constant topic (some 1209600000) := by
  intro read answer given
  unfold doubled at given
  split at given
  · cases given
    rfl
  · cases given

/-- A round finds the topic unknown; then a commit is pushed, and expires by its topic's own
setting. -/
def expiringLate : List RetentionEvent :=
  [.tick { now := 5, trims := fun _ => ⟨[], .ok 1⟩, deletes := fun _ => true },
    .appended [firstCommit], .delta firstCommit [],
    .tick { now := 1209600005, trims := fun _ => ⟨[], .ok 1⟩, deletes := fun _ => true }]

theorem trims_waited_expiringLate :
    ∃ task, Retention.new [] .new = .ok task ∧
      (task.run (doubled 9) [⟨[], .ok 9⟩] expiringLate).acted.map Acted.action =
        [.sweep, .trim ⟨"t"⟩ 0 2, .sweep] ∧
      ∀ before event after, expiringLate = before ++ event :: after →
        Waits ⟨"t"⟩ (some 1209600000) event (task.run (doubled 9) [⟨[], .ok 9⟩] before)
          (task.run (doubled 9) [⟨[], .ok 9⟩] (before ++ [event])) := by
  refine ⟨_, rfl, by decide, ?_⟩
  refine (trims_waited _ (constant_doubled 9 _) _ expiringLate ?_).2
  intro before event after split_
  rcases before with _ | ⟨first, _ | ⟨second, _ | ⟨third, _ | ⟨fourth, before⟩⟩⟩⟩
  · cases split_
    rintro _ _ ⟨partition, deadline, armed, -⟩
    cases armed
  · cases split_
    trivial
  · cases split_
    trivial
  · cases split_
    exact fun _ _ _ => .inl (by decide)
  · cases before <;> cases split_

/-- The commit's topic is known, the task falls behind, and the catalog answers no more. -/
def laggedBehind : List RetentionEvent :=
  [.appended [firstCommit], .delta firstCommit [], .lagged [⟨[], .ok 9⟩, ⟨[], .ok 9⟩],
    .tick { now := 604800005, trims := fun _ => ⟨[], .ok 1⟩, deletes := fun _ => true }]

/-- The topic is trimmed after half of what its setting asks. -/
theorem trims_early : (doubled 1).Constant ⟨"t"⟩ (some 1209600000) ∧
    ∃ task, Retention.new [] .new = .ok task ∧
      ¬ ∀ before event after, laggedBehind = before ++ event :: after →
        Waits ⟨"t"⟩ (some 1209600000) event (task.run (doubled 1) [⟨[], .ok 9⟩] before)
          (task.run (doubled 1) [⟨[], .ok 9⟩] (before ++ [event])) := by
  refine ⟨constant_doubled 1 _, _, rfl, fun waits => ?_⟩
  obtain ⟨journaled, acted, waited⟩ := waits (laggedBehind.take 3) _ [] rfl
  have early : [(.trim ⟨"t"⟩ 0 2, some ⟨5, 5⟩), (.sweep, some ⟨5, 5⟩)] = journaled.map
      (fun a => (a.action, a.cell.index.timeSpan (⟨"t"⟩, 0))) := by
    have mapped := congrArg (List.map fun a : Acted =>
      (a.action, a.cell.index.timeSpan (⟨"t"⟩, 0))) acted
    rw [List.map_append] at mapped
    exact mapped
  have among : (RetentionAction.trim ⟨"t"⟩ 0 2, some (⟨5, 5⟩ : TimeSpan)) ∈ journaled.map
      (fun a => (a.action, a.cell.index.timeSpan (⟨"t"⟩, 0))) := by
    rw [← early]
    exact List.mem_cons_self ..
  obtain ⟨a, journaled_, same⟩ := List.mem_map.mp among
  obtain ⟨trims, spans⟩ := Prod.mk.inj same
  obtain ⟨round, tick, waited⟩ := waited a journaled_
  cases tick
  obtain ⟨span, there, late, -⟩ := waited 0 2 trims
  cases spans.symm.trans there
  exact absurd late (by decide)

end Retention

end Oqueue
