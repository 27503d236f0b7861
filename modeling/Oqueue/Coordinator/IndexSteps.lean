import Oqueue.Coordinator.ServingIndex
import Oqueue.Index.Extent

/-!
# The serving index, step by step

The loop of a node that leads, cut at its awaits, so that what readers meet in between can be
said: an entry that is in the log and not yet in the index, a rebuild or a replay between two
of its pages, and an index that was emptied because a fold was refused or a read failed.
-/

namespace Oqueue

open Checked Follower

/-- What the loop waits for. -/
inductive IndexTask where
  | idle
  /-- The entry is in the log; the index has yet to be told. -/
  | publishing (entry : MetadataEntry)
  | rebuilding (start : Nat)
  /-- The first page of a replay. -/
  | opening
  | replaying (start : Nat) (allocator : Allocator)

inductive IndexEvent where
  | journaled (entry : MetadataEntry)
  | published
  | read (read : LogRead)
  | replays
  | dropped

/-- The log and the index, what the loop waits for, and the entries it has acknowledged: the
log from its first entry on. -/
structure IndexTurns extends Shared where
  pendingReplay : Bool
  task : IndexTask
  acked : List MetadataEntry

namespace IndexTurns

/-- A loop whose replay was left to it, over a log of acknowledged entries: the index is empty. -/
def openDeferred (line : List MetadataEntry) (quota : Option IndexQuota) : IndexTurns :=
  ⟨⟨line, ⟨{ quota := quota }, []⟩⟩, true, .idle, line⟩

/-- The commit is answered, whatever became of the index. -/
def acknowledged (self : IndexTurns) (shared : Shared) : IndexTurns :=
  { self with toShared := shared, task := .idle, acked := shared.line }

/-- The replay gives up: the index is left empty, and the replay pending. -/
def givesUp (self : IndexTurns) (shared : Shared) : IndexTurns :=
  { self with toShared := shared.clear, task := .idle }

def rebuildPage (self : IndexTurns) (shared : Shared) (page : List MetadataEntry) : IndexTurns :=
  match page.getLast? with
  | none => self.acknowledged shared
  | some tail =>
    match shared.fold page with
    | .error _ => self.acknowledged shared.clear
    | .ok shared =>
      match CommitVersion.advance tail.version 1 with
      | .error _ => self.acknowledged shared
      | .ok start => { self with toShared := shared, task := .rebuilding start }

def replayPage (self : IndexTurns) (shared : Shared) (allocator : Allocator)
    (page : List MetadataEntry) : IndexTurns :=
  match page.getLast? with
  | none => { self with toShared := shared, task := .idle, pendingReplay := false }
  | some tail =>
    match page.foldlM Allocator.replay allocator with
    | .error _ => self.givesUp shared
    | .ok allocator =>
      match shared.fold page with
      | .error _ => self.givesUp shared
      | .ok shared =>
        match CommitVersion.advance tail.version 1 with
        | .error _ => self.givesUp shared
        | .ok start => { self with toShared := shared, task := .replaying start allocator }

/-- Whether the index sits exactly one version below. -/
def indexPrecedes (self : IndexTurns) (version : Nat) : Bool :=
  ({ toShared := self.toShared } : Leader).indexPrecedes version

/-- One step of the loop; an event it does not wait for changes nothing. -/
def step (self : IndexTurns) (event : IndexEvent) : IndexTurns :=
  match self.task, event with
  | .idle, .journaled entry =>
    if self.pendingReplay = false ∧ MetadataLog.Takes self.line entry then
      { self with line := self.line ++ [entry], task := .publishing entry }
    else self
  | .idle, .replays => if self.pendingReplay then { self with task := .opening } else self
  | .idle, .dropped => { self with toShared := self.toShared.clear }
  | .publishing entry, .published =>
    if self.indexPrecedes entry.version then
      match self.toShared.fold [entry] with
      | .error _ => self.acknowledged self.toShared.clear
      | .ok shared => self.acknowledged shared
    else { self with toShared := self.toShared.clear, task := .rebuilding 0 }
  | .rebuilding start, .read next =>
    match self.toShared.read next start with
    | (shared, .error _) => self.acknowledged shared.clear
    | (shared, .ok page) => self.rebuildPage shared page
  | .opening, .read next =>
    match self.toShared.read next 0 with
    | (shared, .error _) => { self with toShared := shared, task := .idle }
    | (shared, .ok page) => self.replayPage shared.clear {} page
  | .replaying start allocator, .read next =>
    match self.toShared.read next start with
    | (shared, .error _) => self.givesUp shared
    | (shared, .ok page) => self.replayPage shared allocator page
  | _, _ => self

def run (self : IndexTurns) (events : List IndexEvent) : IndexTurns := events.foldl step self

/-- What the loop's position says of the index. -/
def TaskInv (self : IndexTurns) : Prop :=
  match self.task with
  | .idle | .opening => True
  | .publishing entry => ∃ before, self.line = before ++ [entry] ∧
      MetadataLog.Takes before entry ∧ Tracks before self.cell
  | .rebuilding start | .replaying start _ => start = self.cell.appliedUpto.elim 0 (· + 1)

structure Inv (turns : IndexTurns) : Prop where
  following : turns.toShared.Following
  acked : turns.acked <+: turns.line
  task : turns.TaskInv

variable {self : IndexTurns}

theorem Inv.openDeferred {line : List MetadataEntry} (ascending : MetadataLog.Ascending line)
    (quota : Option IndexQuota) : (openDeferred line quota).Inv where
  following := ⟨ascending, List.nil_prefix, rfl⟩
  acked := List.prefix_refl _
  task := trivial

theorem Inv.acknowledged {shared : Shared} (following : shared.Following) :
    (self.acknowledged shared).Inv := ⟨following, List.prefix_refl _, trivial⟩

theorem Inv.givesUp (inv : self.Inv) {shared : Shared} (grows : Shared.Grows self.toShared shared)
    (ascending : MetadataLog.Ascending shared.line) : (self.givesUp shared).Inv :=
  ⟨.cleared ascending, inv.acked.trans grows.isPrefix, trivial⟩

/-- A page that comes right after what is folded. -/
theorem Inv.rebuildPage (inv : self.Inv) {shared : Shared}
    (following : shared.Following) {page : List MetadataEntry}
    (grows : Shared.Grows self.toShared shared)
    (next : shared.cell.folded ++ page <+: shared.line) : (self.rebuildPage shared page).Inv := by
  unfold IndexTurns.rebuildPage
  cases htail : page.getLast? with
  | none => exact .acknowledged following
  | some tail =>
    dsimp only
    cases hfold : shared.fold page with
    | error refused => exact .acknowledged (.cleared following.ascending)
    | ok folded =>
      obtain ⟨folds, held⟩ := following.fold hfold next
      dsimp only
      cases hadvance : CommitVersion.advance tail.version 1 with
      | error refused => exact .acknowledged folds
      | ok start =>
        obtain ⟨rfl, -⟩ := CommitVersion.advance_eq_ok.mp hadvance
        refine ⟨folds, inv.acked.trans (grows.trans (.fold hfold)).isPrefix, ?_⟩
        change tail.version + 1 = folded.cell.appliedUpto.elim 0 (· + 1)
        rw [folds.appliedUpto held htail]
        rfl

theorem Inv.replayPage (inv : self.Inv) {shared : Shared} (following : shared.Following)
    (allocator : Allocator) {page : List MetadataEntry}
    (grows : Shared.Grows self.toShared shared)
    (next : shared.cell.folded ++ page <+: shared.line) :
    (self.replayPage shared allocator page).Inv := by
  unfold IndexTurns.replayPage
  cases htail : page.getLast? with
  | none => exact ⟨following, inv.acked.trans grows.isPrefix, trivial⟩
  | some tail =>
    dsimp only
    cases page.foldlM Allocator.replay allocator with
    | error refused => exact inv.givesUp grows following.ascending
    | ok allocator' =>
      dsimp only
      cases hfold : shared.fold page with
      | error refused => exact inv.givesUp grows following.ascending
      | ok folded =>
        obtain ⟨folds, held⟩ := following.fold hfold next
        dsimp only
        cases hadvance : CommitVersion.advance tail.version 1 with
        | error refused => exact inv.givesUp (grows.trans (.fold hfold)) folds.ascending
        | ok start =>
          obtain ⟨rfl, -⟩ := CommitVersion.advance_eq_ok.mp hadvance
          refine ⟨folds, inv.acked.trans (grows.trans (.fold hfold)).isPrefix, ?_⟩
          change tail.version + 1 = folded.cell.appliedUpto.elim 0 (· + 1)
          rw [folds.appliedUpto held htail]
          rfl

theorem Inv.read (inv : self.Inv) {next : LogRead} {start : Nat} {shared : Shared}
    {page : List MetadataEntry} (reached : start = self.cell.appliedUpto.elim 0 (· + 1))
    (h : self.toShared.read next start = (shared, .ok page)) :
    shared.Following ∧ Shared.Grows self.toShared shared ∧
      shared.cell.folded ++ page <+: shared.line := by
  obtain ⟨grows, same, page_eq⟩ := Shared.read_spec h
  obtain ⟨seen, rfl⟩ := page_eq page rfl
  have following := inv.following.read h
  rw [← same] at reached
  exact ⟨following, grows, following.follows.read_next following.ascending reached seen⟩

theorem Inv.step (inv : self.Inv) (event : IndexEvent) : (self.step event).Inv := by
  have here := inv.task
  unfold TaskInv at here
  unfold IndexTurns.step
  split <;> rename_i task_ <;> try rw [task_] at here
  · rename_i entry
    split
    · rename_i free
      refine ⟨⟨inv.following.ascending.snoc free.2, inv.following.follows.mono ?_⟩, ?_,
        self.line, rfl, free.2, inv.following.follows⟩
      · exact List.prefix_append ..
      · exact inv.acked.trans (List.prefix_append ..)
    · exact inv
  · split
    · exact ⟨inv.following, inv.acked, trivial⟩
    · exact inv
  · exact ⟨.cleared inv.following.ascending, inv.acked, by unfold TaskInv; rw [task_]; trivial⟩
  · rename_i entry
    obtain ⟨before, line, takes, tracks⟩ := here
    split
    · rename_i precedes
      split
      · exact .acknowledged (.cleared inv.following.ascending)
      · rename_i shared hfold
        have ascending : MetadataLog.Ascending before := by
          have whole := inv.following.ascending
          rw [line] at whole
          exact whole.append.1
        have next := tracks.next_entry ascending takes
          (Leader.indexPrecedes_eq entry.version precedes)
        exact .acknowledged (inv.following.fold hfold (by rw [line, next])).1
    · exact ⟨.cleared inv.following.ascending, inv.acked, rfl⟩
  · rename_i start next
    split
    · rename_i shared refused read
      exact .acknowledged (.cleared (inv.following.read read).ascending)
    · rename_i shared page read
      obtain ⟨following, grows, follows⟩ := inv.read here read
      exact inv.rebuildPage following grows follows
  · rename_i next
    split
    · rename_i shared refused read
      exact ⟨inv.following.read read, inv.acked.trans (Shared.read_spec read).1.isPrefix, trivial⟩
    · rename_i shared page read
      obtain ⟨grows, -, page_eq⟩ := Shared.read_spec read
      obtain ⟨seen, rfl⟩ := page_eq page rfl
      have cleared : shared.clear.Following := .cleared (inv.following.read read).ascending
      exact inv.replayPage cleared _ ⟨grows.isPrefix, grows.ascending⟩
        (cleared.follows.read_next cleared.ascending rfl seen)
  · rename_i start allocator next
    split
    · rename_i shared refused read
      exact inv.givesUp (Shared.read_spec read).1 (inv.following.read read).ascending
    · rename_i shared page read
      obtain ⟨following, grows, follows⟩ := inv.read here read
      exact inv.replayPage following _ grows follows
  · exact inv

theorem Inv.run (inv : self.Inv) (events : List IndexEvent) : (self.run events).Inv := by
  induction events generalizing self with
  | nil => exact inv
  | cons event rest ih => exact ih (inv.step event)

theorem line_rebuildPage (self : IndexTurns) (shared : Shared) (page : List MetadataEntry) :
    (self.rebuildPage shared page).line = shared.line := by
  unfold rebuildPage
  split
  · rfl
  · split
    · rfl
    · rename_i folded hfold
      obtain ⟨same, -⟩ := Shared.fold_eq_ok.mp hfold
      split
      · exact same
      · exact same

theorem line_replayPage (self : IndexTurns) (shared : Shared) (allocator : Allocator)
    (page : List MetadataEntry) : (self.replayPage shared allocator page).line = shared.line := by
  unfold replayPage
  split
  · rfl
  · split
    · rfl
    · split
      · rfl
      · rename_i folded hfold
        obtain ⟨same, -⟩ := Shared.fold_eq_ok.mp hfold
        split
        · exact same
        · exact same

/-- The log only grows. -/
theorem line_step (self : IndexTurns) (event : IndexEvent) :
    self.line <+: (self.step event).line := by
  unfold step
  split
  · split
    · exact List.prefix_append ..
    · exact List.prefix_refl _
  · split <;> exact List.prefix_refl _
  · exact List.prefix_refl _
  · split
    · split
      · exact List.prefix_refl _
      · rename_i shared hfold
        rw [show (self.acknowledged shared).line = self.line from (Shared.fold_eq_ok.mp hfold).1]
    · exact List.prefix_refl _
  · split <;> rename_i read
    · exact (Shared.read_spec read).1.isPrefix
    · rw [line_rebuildPage]
      exact (Shared.read_spec read).1.isPrefix
  · split <;> rename_i read
    · exact (Shared.read_spec read).1.isPrefix
    · rw [line_replayPage]
      exact (Shared.read_spec read).1.isPrefix
  · split <;> rename_i read
    · exact (Shared.read_spec read).1.isPrefix
    · rw [line_replayPage]
      exact (Shared.read_spec read).1.isPrefix
  · exact List.prefix_refl _

theorem line_run (self : IndexTurns) (events : List IndexEvent) :
    self.line <+: (self.run events).line := by
  induction events generalizing self with
  | nil => exact List.prefix_refl _
  | cons event rest ih => exact (line_step self event).trans (ih _)

/-- Whether the index has folded everything up to the last of these entries. -/
def Covers (self : IndexTurns) (entries : List MetadataEntry) : Prop :=
  ∀ last, entries.getLast? = some last → ∃ held, self.cell.appliedUpto = some held ∧
    last.version ≤ held

theorem Inv.folds (inv : self.Inv) {entries : List MetadataEntry} (acked : entries <+: self.line)
    (covers : self.Covers entries) : entries <+: self.cell.folded := by
  rcases List.prefix_or_prefix_of_prefix acked inv.following.follows.isPrefix with all | short
  · exact all
  · obtain ⟨rest, rfl⟩ := short
    rcases List.eq_nil_or_concat' rest with rfl | ⟨front, last, rfl⟩
    · rw [List.append_nil]
    · obtain ⟨held, upto, reached⟩ := covers last (by simp)
      rw [inv.following.follows.appliedUpto, Option.map_eq_some_iff] at upto
      obtain ⟨tail, htail, rfl⟩ := upto
      have ascending := inv.following.ascending.of_prefix acked
      have below := ascending.append.2.2 tail (List.mem_of_getLast? htail) last (by simp)
      omega

/-- What an index that has folded the acknowledged log knows of a partition. -/
theorem Inv.reaches (inv : self.Inv) {entries : List MetadataEntry} (acked : entries <+: self.line)
    (covers : self.Covers entries) {truth : IndexState}
    (folded : IndexState.new.apply entries = .ok truth) (key : PartitionKey) :
    truth.endOffset key ≤ self.cell.index.endOffset key ∧
    ∀ offset, truth.logStart key ≤ offset →
      (∀ entry ∈ self.line.drop entries.length, ¬ entry.record.TrimsPast key offset) →
      self.cell.index.logStart key ≤ offset := by
  have whole := inv.folds acked covers
  obtain ⟨more, split⟩ := whole
  have fold := IndexState.foldlM_advance_unbounded inv.following.follows.fold
  have first := (IndexState.Sound.new.page_agrees rfl _ _).mp folded
  rw [← split, List.foldlM_append] at fold
  change (entries.foldlM IndexState.advance IndexState.new >>= _) = _ at fold
  rw [first, bind_ok] at fold
  refine ⟨IndexState.foldlM_endOffset_le fold key, ?_⟩
  intro offset started keeps
  refine IndexState.foldlM_logStart_le fold started ?_
  intro entry among
  apply keeps
  obtain ⟨rest, line⟩ := inv.following.follows.isPrefix
  rw [← line, ← split, List.append_assoc, List.drop_left]
  exact List.mem_append_left _ among

end IndexTurns

end Oqueue
