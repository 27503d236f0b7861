import Oqueue.Broker.Retention
import Oqueue.Coordinator.ServingIndex

/-!
# What the retention task acts on

A rebuild always ends with an index that follows the log, or with none. A pushed
entry does not: it is folded wherever its version is above the index's, with nothing
to say that the log has none between. So the task acts on the fold of the log exactly
as long as what it is pushed is what the log has next.
-/

namespace Oqueue

open Checked Follower Shared

/-- The index an action was decided on is the fold of the log up to the version it holds. -/
def Acted.Based (line : List MetadataEntry) (self : Acted) : Prop :=
  IndexState.new.apply (self.cell.appliedUpto.elim [] (MetadataLog.upTo line)) =
    .ok self.cell.index.unbounded

namespace Retention

variable (catalog : TopicCatalog)

/-- Only the heap's side of the task has moved. -/
structure Frame (before after : Retention) : Prop where
  shared : after.toShared = before.toShared
  synced : after.synced = before.synced
  acted : after.acted = before.acted

theorem Frame.refl (self : Retention) : Frame self self := ⟨rfl, rfl, rfl⟩

theorem Frame.trans {a b c : Retention} (first : Frame a b) (second : Frame b c) : Frame a c :=
  ⟨second.shared.trans first.shared, second.synced.trans first.synced,
    second.acted.trans first.acted⟩

theorem frame_foldl {ι : Type} {f : Retention → ι → Retention}
    (each : ∀ self item, Frame self (f self item)) (items : List ι) (self : Retention) :
    Frame self (items.foldl f self) :=
  List.foldlRecOn (motive := Frame self) items f (Frame.refl self)
    fun _ held item _ => held.trans (each _ item)

theorem frame_configure (self : Retention) (topic : TopicId) :
    Frame self (self.configure catalog topic) := ⟨rfl, rfl, rfl⟩

theorem frame_armSpan (self : Retention) (span : CommittedSpan) :
    Frame self (self.armSpan catalog span) := ⟨rfl, rfl, rfl⟩

theorem frame_arm (self : Retention) (entry : MetadataEntry) :
    Frame self (self.arm catalog entry) := by
  unfold arm
  split
  · exact frame_foldl (frame_armSpan catalog) _ self
  · exact frame_configure catalog self _
  · exact Frame.refl self

theorem frame_reconcileConfigurations (self : Retention) :
    Frame self (self.reconcileConfigurations catalog) := by
  unfold reconcileConfigurations
  dsimp only
  split
  · exact ⟨rfl, rfl, rfl⟩
  · have all := frame_foldl (frame_configure catalog)
      (self.heap.topicsAfter self.reconciliationCursor configReconciliationBatch) self
    exact ⟨all.shared, all.synced, all.acted⟩

/-- The log is in order, the index follows it while the task is synced, and it did each time
the task acted. -/
structure Inv (task : Retention) : Prop where
  ascending : MetadataLog.Ascending task.line
  follows : task.synced = true → Tracks task.line task.cell
  acted : ∀ a ∈ task.acted, Tracks task.line a.cell

variable {task : Retention}

theorem Inv.frame (inv : task.Inv) {after : Retention} (frame : Frame task after) : after.Inv where
  ascending := by
    rw [frame.shared]
    exact inv.ascending
  follows := by
    rw [frame.shared, frame.synced]
    exact inv.follows
  acted := by
    rw [frame.shared, frame.acted]
    exact inv.acted

theorem Inv.moved (inv : task.Inv) {after : Retention} (grows : Grows task.toShared after.toShared)
    (acted : after.acted = task.acted) (follows : after.synced = true → Tracks after.line after.cell) :
    after.Inv where
  ascending := grows.ascending inv.ascending
  follows := follows
  acted := by
    rw [acted]
    exact fun a ha => (inv.acted a ha).mono grows.isPrefix

theorem rebuildPages_following (reads : List LogRead) {start : Nat} {self : Retention}
    (following : self.toShared.Following)
    (reached : start = self.cell.appliedUpto.elim 0 (· + 1)) :
    Grows self.toShared (rebuildPages catalog reads start self).toShared ∧
      (rebuildPages catalog reads start self).toShared.Following ∧
      (rebuildPages catalog reads start self).acted = self.acted := by
  fun_induction rebuildPages catalog reads start self with
  | case1 start self => exact ⟨⟨List.prefix_refl _, id⟩, .cleared following.ascending, rfl⟩
  | case2 next reads start self mid error hread =>
    obtain ⟨grows, -, -⟩ := read_spec hread
    exact ⟨⟨grows.isPrefix, grows.ascending⟩, .cleared (following.read hread).ascending, rfl⟩
  | case3 next reads start self mid page hread hnone =>
    exact ⟨(read_spec hread).1, following.read hread, rfl⟩
  | case4 next reads start self mid page hread =>
    obtain ⟨grows, -, -⟩ := read_spec hread
    exact ⟨⟨grows.isPrefix, grows.ascending⟩, .cleared (following.read hread).ascending, rfl⟩
  | case5 next reads start self mid page hread =>
    obtain ⟨grows, -, -⟩ := read_spec hread
    exact ⟨⟨grows.isPrefix, grows.ascending⟩, .cleared (following.read hread).ascending, rfl⟩
  | case6 next reads start self mid page hread last hlast start' hadvance held hfold ih =>
    obtain ⟨grows, folds, upto⟩ := following.foldNext reached hread hlast hfold
    obtain ⟨rfl, -⟩ := CommitVersion.advance_eq_ok.mp hadvance
    have armed := frame_foldl (frame_arm catalog) page { self with toShared := held }
    obtain ⟨further, ends, acted⟩ := ih (by rw [armed.shared]; exact folds)
      (by rw [armed.shared]; exact (by rw [upto, Option.elim_some]))
    rw [armed.shared] at further
    exact ⟨grows.trans further, ends, acted.trans armed.acted⟩

theorem Inv.rebuild (inv : task.Inv) (reads : List LogRead) : (task.rebuild catalog reads).Inv := by
  have cleared : task.forgotten.toShared.Following := .cleared inv.ascending
  have start : 0 = task.forgotten.cell.appliedUpto.elim 0 (· + 1) := rfl
  obtain ⟨grows, following, acted⟩ := rebuildPages_following catalog reads cleared start
  exact inv.moved ⟨grows.isPrefix, grows.ascending⟩ acted fun _ => following.follows

/-- What a pushed entry has to be for a synced task to stay so: one the index already has, or
the entry the log holds right after those. -/
def Meets (self : Retention) : RetentionEvent → Prop
  | .delta entry _ => self.synced = true →
    (self.cell.appliedUpto.any fun applied => decide (entry.version ≤ applied)) = true ∨
      (missing MetadataEntry.version self.cell.appliedUpto self.line).head? = some entry
  | _ => True

theorem Inv.fold (inv : task.Inv) {entry : MetadataEntry} {reads : List LogRead}
    (meets : task.Meets (.delta entry reads)) : (task.fold catalog entry reads).Inv := by
  unfold Retention.fold
  split
  · exact inv
  · rename_i above
    cases hfold : task.toShared.fold [entry] with
    | error error => exact inv.rebuild catalog reads
    | ok shared =>
      have moved : ({ task with toShared := shared } : Retention).Inv := by
        refine inv.moved (Grows.fold hfold) rfl ?_
        intro synced
        rcases meets synced with held | next
        · exact absurd held above
        · have following : task.toShared.Following := ⟨inv.ascending, inv.follows synced⟩
          have continues := following.follows.next_missing following.ascending next
          exact (following.fold hfold continues).1.follows
      exact moved.frame (frame_arm catalog _ entry)

theorem Inv.did (inv : task.Inv) (synced : task.synced = true) (action : RetentionAction) :
    (task.did action).Inv where
  ascending := inv.ascending
  follows := inv.follows
  acted := by
    intro a ha
    rcases List.mem_append.mp ha with ha | ha
    · exact inv.acted a ha
    · rw [List.mem_singleton] at ha
      subst ha
      exact inv.follows synced

theorem Inv.grow (inv : task.Inv) (entries : List MetadataEntry) :
    ({ task with line := MetadataLog.grow task.line entries } : Retention).Inv := by
  have longer : task.line <+: MetadataLog.grow task.line entries := prefix_grow ..
  refine inv.moved ⟨longer, fun ascending => ascending.grow _⟩ rfl ?_
  exact fun synced => (inv.follows synced).mono longer

theorem Inv.trim (inv : task.Inv) (synced : task.synced = true) (answer : TrimAnswer)
    (topic : TopicId) (partition start : Nat) :
    (task.trim answer topic partition start).1.Inv ∧
      (task.trim answer topic partition start).1.synced = true := by
  have asked := (inv.did synced (.trim topic partition start)).grow answer.grown
  unfold Retention.trim
  dsimp only
  split
  · exact ⟨asked.frame ⟨rfl, rfl, rfl⟩, synced⟩
  · exact ⟨asked, synced⟩
  · exact ⟨asked.frame ⟨rfl, rfl, rfl⟩, synced⟩

theorem Inv.trimEach (answers : Nat → TrimAnswer) {made : Nat} {trims : List MetadataRecord}
    (inv : task.Inv) (synced : task.synced = true) :
    (trimEach answers made trims task).1.Inv ∧
      (trimEach answers made trims task).1.synced = true := by
  fun_induction Retention.trimEach answers made trims task with
  | case1 => exact ⟨inv, synced⟩
  | case2 made topic partition start rest self after hstopped =>
    have trimmed := inv.trim synced (answers made) topic partition start
    rw [hstopped] at trimmed
    exact trimmed
  | case3 made topic partition start rest self after htrim ih =>
    have trimmed := inv.trim synced (answers made) topic partition start
    rw [htrim] at trimmed
    exact ih trimmed.1 trimmed.2
  | case4 made record rest self notTrim ih => exact ih inv synced

theorem Inv.trimExpired (inv : task.Inv) (synced : task.synced = true) (round : Round) :
    (task.trimExpired round).1.Inv ∧ (task.trimExpired round).1.synced = true := by
  unfold Retention.trimExpired
  split
  · have popped : ({ task with
        heap := (task.heap.dueAt task.cell.index round.now).1 } : Retention).Inv :=
      inv.frame ⟨rfl, rfl, rfl⟩
    exact popped.trimEach round.trims synced
  · exact ⟨inv, synced⟩

theorem Inv.round (inv : task.Inv) (round : Round) : (task.round catalog round).Inv := by
  unfold Retention.round
  have rebuilt : (if task.synced then task else task.rebuild catalog round.rebuilds).Inv := by
    split
    · exact inv
    · exact inv.rebuild catalog round.rebuilds
  generalize (if task.synced then task else task.rebuild catalog round.rebuilds) = held at rebuilt
  dsimp only
  split
  · exact rebuilt
  · rename_i synced
    have frame := frame_reconcileConfigurations catalog held
    have reconciled := rebuilt.frame frame
    have still : (held.reconcileConfigurations catalog).synced = true := by
      rw [frame.synced]
      simpa using synced
    obtain ⟨trimmed, stays⟩ := reconciled.trimExpired still round
    cases htrim : (held.reconcileConfigurations catalog).trimExpired round with
    | mk after going =>
    rw [htrim] at trimmed stays
    cases going with
    | false => exact trimmed.frame ⟨rfl, rfl, rfl⟩
    | true => exact (trimmed.did stays .sweep).frame ⟨rfl, rfl, rfl⟩

theorem Inv.step (inv : task.Inv) {event : RetentionEvent} (meets : task.Meets event) :
    (task.step catalog event).Inv := by
  unfold Retention.step
  split
  · exact inv
  · cases event with
    | delta entry reads => exact inv.fold catalog meets
    | lagged reads => exact inv.rebuild catalog reads
    | tick round => exact inv.round catalog round
    | closed => exact inv.frame ⟨rfl, rfl, rfl⟩
    | appended entries => exact inv.grow entries

/-- Every event of a run meets what is asked of it where it arrives. -/
def AllMeet : Retention → List RetentionEvent → Prop
  | _, [] => True
  | self, event :: rest => self.Meets event ∧ AllMeet (self.step catalog event) rest

theorem Inv.events (inv : task.Inv) {events : List RetentionEvent}
    (meets : AllMeet catalog task events) : (events.foldl (Retention.step catalog) task).Inv := by
  induction events generalizing task with
  | nil => exact inv
  | cons event rest ih => exact ih (inv.step catalog meets.1) meets.2

/-- As long as a synced task is pushed what it has or what the log has next, every trim it
journals and every sweep it makes is decided on the fold of the log up to the version its
index holds. -/
theorem acts_on_fold (written : List MetadataEntry) (index : IndexState) (task : Retention)
    (reads : List LogRead) (events : List RetentionEvent)
    (opened : Retention.new (MetadataLog.grow [] written) index = .ok task)
    (meets : AllMeet catalog (task.rebuild catalog reads) events) :
    ∀ a ∈ (task.run catalog reads events).acted, a.Based (task.run catalog reads events).line := by
  have start : MetadataLog.Ascending (MetadataLog.grow [] written) :=
    Ascending.grow List.Pairwise.nil written
  have initial : task.Inv := by
    obtain ⟨lifecycle, -, htask⟩ := bind_eq_ok.mp opened
    cases htask
    exact ⟨start, by rintro ⟨⟩, by rintro a ⟨⟩⟩
  have inv : (task.run catalog reads events).Inv :=
    (initial.rebuild catalog reads).events catalog meets
  intro a ha
  have follows := inv.acted a ha
  have folds := follows.unbounded
  rw [follows.folded_eq inv.ascending] at folds
  exact folds

def unset : TopicCatalog := fun _ _ => .ok none

def firstCommit : MetadataEntry :=
  ⟨0, .batchCommitted ⟨"a"⟩ [⟨⟨"t"⟩, 0, 2, .full, none⟩] 5⟩

def expiring : List RetentionEvent :=
  [.appended [firstCommit], .delta firstCommit [],
    .tick { now := 604800005, trims := fun _ => ⟨[], .ok 1⟩, deletes := fun _ => true }]

theorem acts_on_fold_expiring :
    ∃ task, Retention.new (MetadataLog.grow [] []) .new = .ok task ∧
      (task.run unset [⟨[], .ok 9⟩] expiring).acted.map Acted.action =
        [.trim ⟨"t"⟩ 0 2, .sweep] ∧
      ∀ a ∈ (task.run unset [⟨[], .ok 9⟩] expiring).acted,
        a.Based (task.run unset [⟨[], .ok 9⟩] expiring).line := by
  refine ⟨_, rfl, by decide, ?_⟩
  refine acts_on_fold unset [] .new _ _ _ rfl ⟨trivial, ?_, trivial, trivial⟩
  exact fun _ => .inr rfl

/-- The first commit is pushed. Another leader commits after it, and this one after that,
once it leads again: only the last of the two is pushed. -/
def gapped : List RetentionEvent :=
  let others : MetadataEntry := ⟨1, .batchCommitted ⟨"c"⟩ [⟨⟨"t"⟩, 0, 4, .full, none⟩] 6⟩
  let own : MetadataEntry := ⟨2, .batchCommitted ⟨"b"⟩ [⟨⟨"t"⟩, 0, 3, .full, none⟩] 5⟩
  [.appended [firstCommit], .delta firstCommit [], .appended [others, own], .delta own [],
    .tick { now := 9, trims := fun _ => ⟨[], .ok 3⟩, deletes := fun _ => true }]

def pushed (events : List RetentionEvent) : List MetadataEntry :=
  events.filterMap fun
    | .delta entry _ => some entry
    | _ => none

/-- What a coordinator publishes across a change of leaders, over the log it leaves: the task
sweeps on an index that has the partition's third commit where the second one is. -/
theorem acts_past_gap :
    ∃ leader task, (LeaderOpening.deferred .new).leader [] true true = some leader ∧
      Retention.new [] .new = .ok task ∧
      pushed gapped = (leader.run Leader.overtaken).deltas ∧
      (task.run unset [⟨[], .ok 9⟩] gapped).line = (leader.run Leader.overtaken).line ∧
      ∃ a ∈ (task.run unset [⟨[], .ok 9⟩] gapped).acted,
        a.action = .sweep ∧ ¬ a.Based (task.run unset [⟨[], .ok 9⟩] gapped).line := by
  refine ⟨_, _, rfl, rfl, by decide, by decide, ?_⟩
  generalize hrun : Retention.run unset _ _ _ = after
  have held : after.acted.map (fun a => (a.action, a.cell.appliedUpto,
      a.cell.index.endOffset (⟨"t"⟩, 0))) = [(.sweep, some 2, 5)] := by
    rw [← hrun]
    decide
  have whole : ((IndexState.new.apply (MetadataLog.upTo after.line 2)).toOption.map
      fun index => index.endOffset (⟨"t"⟩, 0)) = some 9 := by
    rw [← hrun]
    decide
  obtain ⟨a, hacted, ha⟩ := List.map_eq_singleton_iff.mp held
  obtain ⟨hsweep, hupto, hend⟩ := Prod.mk.inj ha |>.imp_right Prod.mk.inj
  refine ⟨a, by rw [hacted]; exact List.mem_singleton_self a, hsweep, ?_⟩
  intro based
  unfold Acted.Based at based
  rw [hupto, Option.elim_some] at based
  rw [based] at whole
  have same : a.cell.index.endOffset (⟨"t"⟩, 0) = 9 := Option.some.inj whole
  rw [hend] at same
  exact absurd same (by decide)

end Retention

end Oqueue
