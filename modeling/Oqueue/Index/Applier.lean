import Oqueue.Index.Following

/-!
# Folding a log to its end

The applier reads the log from right after what its index has folded, a page at a time,
until a page is short. A read or a fold may fail at any page, and a call may be dropped
while it waits; the index's own bookmark is all that the next call goes by.
-/

namespace Oqueue

open Checked Follower

def applyBatchEntries : Nat := 1000

structure CatchUp where
  entries : Nat := 0
  batches : Nat := 0
  reads : Nat := 0
  deriving DecidableEq, Repr

/-- What one round meets: what others append while it waits on the log, and whether the
read or the fold fails for a reason of its own. -/
structure BatchRound where
  grown : List MetadataEntry := []
  readFails : Option Error := none
  foldFails : Option Error := none

structure LogApplier where
  line : List MetadataEntry
  cell : Cell

namespace LogApplier

/-- Discards the materialization, which the log can refill. -/
def dropCache (self : LogApplier) : LogApplier := { self with cell := self.cell.clear }

/-- The version the next batch will start reading at. -/
def resumeFrom (self : LogApplier) : Except Error Nat :=
  match self.cell.appliedUpto with
  | none => .ok 0
  | some applied => CommitVersion.advance applied 1

/-- Folds one batch; how many entries it folded, none when the index has caught up. -/
def applyNextBatch (self : LogApplier) (round : BatchRound) : LogApplier × Except Error Nat :=
  match self.resumeFrom with
  | .error error => (self, .error error)
  | .ok start =>
    let line := MetadataLog.grow self.line round.grown
    let read : LogApplier := { self with line := line }
    match round.readFails with
    | some error => (read, .error error)
    | none =>
      let entries := page MetadataEntry.version line start applyBatchEntries
      if entries.isEmpty then (read, .ok 0)
      else match round.foldFails with
        | some error => (read, .error error)
        | none => match self.cell.apply entries with
          | .error error => (read, .error error)
          | .ok cell => (⟨line, cell⟩, .ok entries.length)

/-- Folds everything the log holds past what the index has, one round after another. A
call that is dropped while it waits for its next page answers nobody. -/
def catchUp (self : LogApplier) (cost : CatchUp) : List BatchRound →
    LogApplier × Option (Except Error CatchUp)
  | [] => (self, none)
  | round :: rounds =>
    match self.applyNextBatch round with
    | (self, .error error) => (self, some (.error error))
    | (self, .ok batch) =>
      let read : CatchUp := { cost with reads := cost.reads + 1 }
      if batch = 0 then (self, some (.ok read))
      else
        let folded : CatchUp :=
          { read with entries := read.entries + batch, batches := read.batches + 1 }
        if batch < applyBatchEntries then (self, some (.ok folded))
        else self.catchUp folded rounds

/-- What is asked of an applier over its life. -/
inductive Call where
  | catchUp (rounds : List BatchRound)
  | dropCache

def call (self : LogApplier) : Call → LogApplier
  | .catchUp rounds => (self.catchUp {} rounds).1
  | .dropCache => self.dropCache

/-- The index is the fold of a beginning of the log, and the log is in order. -/
structure Follows (applier : LogApplier) : Prop where
  tracks : Tracks applier.line applier.cell
  ascending : MetadataLog.Ascending applier.line

variable {applier applier' : LogApplier}

theorem Follows.dropCache (follows : applier.Follows) : applier.dropCache.Follows :=
  ⟨Tracks.cleared _ _, follows.ascending⟩

theorem Follows.grown (follows : applier.Follows) (entries : List MetadataEntry) :
    Follows { applier with line := MetadataLog.grow applier.line entries } :=
  ⟨follows.tracks.mono (prefix_grow ..), follows.ascending.grow _⟩

/-- A round's page is what the log has right after what is folded. -/
theorem Follows.read (follows : applier.Follows) {start : Nat}
    (resumed : applier.resumeFrom = .ok start) {rest : List MetadataEntry}
    (split : applier.line = applier.cell.folded ++ rest) :
    page MetadataEntry.version applier.line start applyBatchEntries =
      rest.take applyBatchEntries := by
  have ascending := follows.ascending
  rw [split] at ascending ⊢
  unfold resumeFrom at resumed
  rw [follows.tracks.appliedUpto] at resumed
  cases hlast : applier.cell.folded.getLast? with
  | none =>
    rw [hlast] at resumed
    cases resumed
    rw [List.getLast?_eq_none_iff] at hlast
    refine page_rest ?_ (fun _ _ => Nat.zero_le _) _
    rw [hlast]
    exact fun e he => absurd he List.not_mem_nil
  | some last =>
    rw [hlast] at resumed
    have after : start = last.version + 1 := by
      unfold CommitVersion.advance at resumed
      dsimp only [Option.map_some] at resumed
      split at resumed
      · exact (Except.ok.inj resumed).symm
      · cases resumed
    subst after
    refine page_rest ?_ ?_ _
    · exact fun e he => Nat.lt_succ_of_le (ascending.append.1.le_last hlast e he)
    · exact fun e he => ascending.beyond (List.mem_of_getLast? hlast) e he

/-- What a round does: it fails and folds nothing, or folds the next page of a log that has
only grown; and there is a next page unless the index is at the end of the log. -/
theorem Follows.round (follows : applier.Follows) (round : BatchRound) {outcome : Except Error Nat}
    (h : applier.applyNextBatch round = (applier', outcome)) :
    applier'.Follows ∧ applier.line <+: applier'.line ∧
      ∀ batch, outcome = .ok batch → ∃ rest,
        applier'.line = applier.cell.folded ++ rest ∧ batch = (rest.take applyBatchEntries).length ∧
        applier'.cell.folded = applier.cell.folded ++ rest.take applyBatchEntries := by
  have grown := follows.grown round.grown
  have longer : applier.line <+: MetadataLog.grow applier.line round.grown := prefix_grow ..
  unfold applyNextBatch at h
  cases resumed : applier.resumeFrom with
  | error error =>
    rw [resumed] at h
    cases h
    exact ⟨follows, List.prefix_refl _, fun _ none => by cases none⟩
  | ok start =>
    rw [resumed] at h
    dsimp only at h
    cases read : round.readFails with
    | some error =>
      rw [read] at h
      cases h
      exact ⟨grown, longer, fun _ none => by cases none⟩
    | none =>
      obtain ⟨rest, split⟩ := grown.tracks.isPrefix
      have next := grown.read resumed split.symm
      dsimp only at next split
      rw [read] at h
      dsimp only at h
      rw [next] at h
      split at h
      case isTrue nothing =>
        cases h
        have none := List.isEmpty_iff.mp nothing
        refine ⟨grown, longer, fun batch same => ⟨rest, split.symm, ?_, ?_⟩⟩
        · cases same
          rw [none]
          rfl
        · rw [none, List.append_nil]
      case isFalse something =>
        cases fold : round.foldFails with
        | some error =>
          rw [fold] at h
          cases h
          exact ⟨grown, longer, fun _ none => by cases none⟩
        | none =>
          rw [fold] at h
          dsimp only at h
          cases applied : applier.cell.apply (rest.take applyBatchEntries) with
          | error error =>
            rw [applied] at h
            cases h
            exact ⟨grown, longer, fun _ none => by cases none⟩
          | ok cell =>
            rw [applied] at h
            cases h
            have part : applier.cell.folded ++ rest.take applyBatchEntries <+:
                MetadataLog.grow applier.line round.grown := by
              rw [← split]
              exact (List.prefix_append_right_inj _).mpr (List.take_prefix ..)
            obtain ⟨tracks, folded⟩ := grown.tracks.apply applied part
            refine ⟨⟨tracks, grown.ascending⟩, longer, ?_⟩
            rintro batch same
            cases same
            exact ⟨rest, split.symm, rfl, folded⟩

/-- A whole call: it keeps following the log, and a success leaves nothing unfolded. -/
theorem Follows.catchUp (follows : applier.Follows) (rounds : List BatchRound) (cost : CatchUp)
    {outcome : Option (Except Error CatchUp)} (h : applier.catchUp cost rounds = (applier', outcome)) :
    applier'.Follows ∧ ∀ spent, outcome = some (.ok spent) →
      applier'.cell.folded = applier'.line := by
  induction rounds generalizing applier cost with
  | nil =>
    cases h
    exact ⟨follows, fun _ none => by cases none⟩
  | cons round rounds ih =>
    unfold LogApplier.catchUp at h
    rcases stepped : applier.applyNextBatch round with ⟨mid, result⟩
    obtain ⟨kept, -, batches⟩ := follows.round round stepped
    rw [stepped] at h
    cases result with
    | error error =>
      cases h
      exact ⟨kept, fun _ none => by cases none⟩
    | ok batch =>
      dsimp only at h
      obtain ⟨rest, line, length, folded⟩ := batches batch rfl
      -- A page that is not full was all there was.
      have last : batch < applyBatchEntries → mid.cell.folded = mid.line := by
        intro short
        have all : rest.take applyBatchEntries = rest := by
          refine List.take_of_length_le ?_
          rw [List.length_take] at length
          omega
        rw [folded, line, all]
      split at h
      case isTrue none =>
        cases h
        refine ⟨kept, fun _ _ => last ?_⟩
        rw [none]
        exact Nat.zero_lt_succ _
      case isFalse some =>
        split at h
        case isTrue short =>
          cases h
          exact ⟨kept, fun _ _ => last short⟩
        case isFalse full => exact ih kept _ h

theorem Follows.call (follows : applier.Follows) (call : Call) : (applier.call call).Follows := by
  cases call with
  | catchUp rounds =>
    rcases h : applier.catchUp {} rounds with ⟨after, outcome⟩
    have kept := (follows.catchUp rounds {} h).1
    unfold LogApplier.call
    dsimp only
    rwa [h]
  | dropCache => exact follows.dropCache

theorem Follows.calls (follows : applier.Follows) (calls : List Call) :
    (calls.foldl LogApplier.call applier).Follows := by
  induction calls generalizing applier with
  | nil => exact follows
  | cons call calls ih => exact ih (follows.call call)

theorem Follows.next_folds (follows : applier.Follows) (plain : applier.cell.index.quota = none)
    {whole : IndexState} (folds : IndexState.new.apply applier.line = .ok whole)
    {entries : List MetadataEntry} (part : applier.cell.folded ++ entries <+: applier.line) :
    ∃ cell, applier.cell.apply entries = .ok cell ∧ cell.index.quota = none := by
  have tracks := follows.tracks
  have entrywise := (IndexState.Sound.new.page_agrees rfl _ _).mp folds
  obtain ⟨rest, split⟩ := part
  rw [← split, List.append_assoc, List.foldlM_append, bind_eq_ok] at entrywise
  obtain ⟨mid, before, after⟩ := entrywise
  have here := tracks.fold
  have empty : applier.cell.index.clear = IndexState.new := by
    unfold IndexState.clear
    rw [plain]
    rfl
  rw [empty, before] at here
  cases here
  rw [List.foldlM_append, bind_eq_ok] at after
  obtain ⟨index, next, -⟩ := after
  have applied := (tracks.sound.page_agrees plain _ _).mpr next
  refine ⟨⟨index, applier.cell.folded ++ entries⟩, bind_eq_ok.mpr ⟨index, applied, rfl⟩, ?_⟩
  exact (IndexState.quota_apply applied).trans plain

theorem Follows.resumes (follows : applier.Follows)
    (versions : ∀ e ∈ applier.line, e.version < u64Max) : ∃ start, applier.resumeFrom = .ok start := by
  unfold resumeFrom
  rw [follows.tracks.appliedUpto]
  cases hlast : applier.cell.folded.getLast? with
  | none => exact ⟨0, rfl⟩
  | some last =>
    have held : last ∈ applier.line :=
      follows.tracks.isPrefix.subset (List.mem_of_getLast? hlast)
    exact ⟨last.version + 1, if_pos (versions last held)⟩

/-- With nothing failing, a call that is let run is answered: the log is read to its end. -/
theorem Follows.reaches (follows : applier.Follows) (plain : applier.cell.index.quota = none)
    {whole : IndexState} (folds : IndexState.new.apply applier.line = .ok whole)
    (versions : ∀ e ∈ applier.line, e.version < u64Max) {rounds : Nat}
    (enough : applier.line.length < applier.cell.folded.length + rounds * applyBatchEntries)
    (cost : CatchUp) :
    ∃ spent, (applier.catchUp cost (List.replicate rounds {})).2 = some (.ok spent) := by
  induction rounds generalizing applier cost with
  | zero =>
    have := follows.tracks.isPrefix.length_le
    omega
  | succ rounds ih =>
    obtain ⟨start, resumed⟩ := follows.resumes versions
    obtain ⟨rest, split⟩ := follows.tracks.isPrefix
    have next := follows.read resumed split.symm
    have part : applier.cell.folded ++ rest.take applyBatchEntries <+: applier.line := by
      rw [← split]
      exact (List.prefix_append_right_inj _).mpr (List.take_prefix ..)
    obtain ⟨cell, applied, plain'⟩ := follows.next_folds plain folds part
    have still : MetadataLog.grow applier.line [] = applier.line := rfl
    have stepped : applier.applyNextBatch {} = if (rest.take applyBatchEntries).isEmpty then
        (applier, .ok 0) else (⟨applier.line, cell⟩, .ok (rest.take applyBatchEntries).length) := by
      unfold applyNextBatch
      rw [resumed]
      dsimp only
      rw [still, next, applied]
    unfold LogApplier.catchUp
    rw [List.replicate_succ]
    dsimp only
    by_cases nothing : (rest.take applyBatchEntries).isEmpty = true
    · rw [stepped, if_pos nothing]
      exact ⟨_, rfl⟩
    · rw [stepped, if_neg nothing]
      dsimp only
      have some : (rest.take applyBatchEntries).length ≠ 0 := by
        intro zero
        exact nothing (List.isEmpty_iff.mpr (List.length_eq_zero_iff.mp zero))
      rw [if_neg some]
      by_cases short : (rest.take applyBatchEntries).length < applyBatchEntries
      · rw [if_pos short]
        exact ⟨_, rfl⟩
      · -- A full page: the rest of the rounds go on from its end.
        rw [if_neg short]
        obtain ⟨tracks, folded⟩ := follows.tracks.apply applied part
        refine @ih ⟨applier.line, cell⟩ ⟨tracks, follows.ascending⟩ plain' folds versions ?_ _
        dsimp only
        rw [folded, List.length_append]
        rw [Nat.succ_mul] at enough
        omega

/-- An applier over any log, from any beginning of it already folded, after any calls that
failed or were dropped anywhere: a call that succeeds has folded the log it last read, all of
it, each entry once; and with nothing failing a call that is let run does succeed. -/
theorem catchUp_whole (applier : LogApplier) (follows : applier.Follows) (calls : List Call) :
    (∀ rounds after spent,
      (calls.foldl call applier).catchUp {} rounds = (after, some (.ok spent)) →
      after.cell.folded = after.line ∧
        IndexState.new.apply after.line = .ok after.cell.index.unbounded) ∧
    ∀ whole, (calls.foldl call applier).cell.index.quota = none →
      IndexState.new.apply (calls.foldl call applier).line = .ok whole →
      (∀ e ∈ (calls.foldl call applier).line, e.version < u64Max) →
      ∃ spent, ((calls.foldl call applier).catchUp {} (List.replicate
        ((calls.foldl call applier).line.length / applyBatchEntries + 1) {})).2 =
          some (.ok spent) := by
  have kept := follows.calls calls
  constructor
  · intro rounds after spent h
    obtain ⟨follows', folded⟩ := kept.catchUp rounds {} h
    have whole := folded spent rfl
    refine ⟨whole, ?_⟩
    rw [← whole]
    exact follows'.tracks.unbounded
  · intro whole plain folds versions
    refine kept.reaches plain folds versions ?_ {}
    have := Nat.div_add_mod (calls.foldl call applier).line.length applyBatchEntries
    have : (calls.foldl call applier).line.length % applyBatchEntries < applyBatchEntries :=
      Nat.mod_lt _ (Nat.zero_lt_succ _)
    rw [Nat.succ_mul, Nat.mul_comm]
    omega

/-- So many entries from a version on. -/
def epochs (first count : Nat) : List MetadataEntry :=
  (List.range' first count).map fun version => ⟨version, .epochChanged 1⟩

theorem epochs_ascending (first count : Nat) : MetadataLog.Ascending (epochs first count) :=
  List.pairwise_map.mpr List.pairwise_lt_range'

theorem epochs_append (first count more : Nat) :
    epochs first count ++ epochs (first + count) more = epochs first (count + more) := by
  unfold epochs
  rw [← List.map_append, List.range'_append_1]

theorem epochs_read (prev : Option Nat) (batch : Batch) (first count : Nat)
    (below : ∀ p, prev = some p → p < first) :
    ∃ last, (epochs first count).foldlM IndexState.new.readEntry (prev, batch) =
      .ok (last, batch) := by
  induction count generalizing prev first with
  | zero => exact ⟨prev, rfl⟩
  | succ count ih =>
    have read : IndexState.new.readEntry (prev, batch) ⟨first, .epochChanged 1⟩ =
        .ok (some first, batch) := by
      unfold IndexState.readEntry
      cases prev with
      | none => rfl
      | some p =>
        dsimp only
        rw [if_neg (Nat.not_le.mpr (below p rfl))]
        rfl
    obtain ⟨last, rest⟩ := ih (some first) (first + 1) (by
      rintro _ ⟨⟩
      exact Nat.lt_succ_self first)
    refine ⟨last, ?_⟩
    rw [epochs, List.range'_succ, List.map_cons, List.foldlM_cons, read]
    exact rest

theorem epochs_fold (count : Nat) : ∃ whole, IndexState.new.apply (epochs 0 count) = .ok whole := by
  obtain ⟨last, read⟩ := epochs_read none {} 0 count nofun
  refine ⟨{ IndexState.new with appliedUpto := last }, ?_⟩
  unfold IndexState.apply
  rw [show IndexState.new.appliedUpto = none from rfl, read]
  rfl

theorem line_applyNextBatch (self : LogApplier) {round : BatchRound} (quiet : round.grown = []) :
    (self.applyNextBatch round).1.line = self.line := by
  unfold applyNextBatch
  rw [quiet]
  cases self.resumeFrom with
  | error error => rfl
  | ok start =>
    dsimp only
    cases round.readFails with
    | some error => rfl
    | none =>
      dsimp only
      split
      · rfl
      · cases round.foldFails with
        | some error => rfl
        | none =>
          dsimp only
          cases self.cell.apply _ <;> rfl

theorem line_catchUp (self : LogApplier) (cost : CatchUp) (rounds : List BatchRound)
    (quiet : ∀ round ∈ rounds, round.grown = []) :
    (self.catchUp cost rounds).1.line = self.line := by
  induction rounds generalizing self cost with
  | nil => rfl
  | cons round rounds ih =>
    have one := self.line_applyNextBatch (quiet round (List.mem_cons_self ..))
    unfold LogApplier.catchUp
    generalize self.applyNextBatch round = result at one ⊢
    rcases result with ⟨mid, error | batch⟩
    · exact one
    · dsimp only
      split
      · exact one
      · split
        · exact one
        · refine (ih mid _ fun round among => ?_).trans one
          exact quiet round (List.mem_cons_of_mem _ among)

/-- A log of two full pages and a half, three entries of it folded: after a call whose read
failed, one whose fold failed and one that was dropped, the next folds all the rest. -/
theorem catchUp_whole_pages :
    let line := epochs 0 2500
    let applier : LogApplier := ⟨line, { IndexState.new with appliedUpto := some 2 }, epochs 0 3⟩
    let failing : List Call := [.catchUp [{ readFails := some .transient }],
      .catchUp [{ foldFails := some .transient }], .catchUp []]
    ∃ after spent, (failing.foldl call applier).catchUp {} [{}, {}, {}] =
      (after, some (.ok spent)) ∧ after.cell.folded = line := by
  intro line applier failing
  have start : applier.Follows := {
    tracks := ⟨⟨epochs 3 2497, epochs_append 0 3 2497⟩, rfl⟩
    ascending := epochs_ascending 0 2500 }
  have still : failing.foldl call applier = applier := rfl
  have length : line.length = 2500 := (List.length_map _).trans List.length_range'
  have rounds : List.replicate (2500 / applyBatchEntries + 1) ({} : BatchRound) = [{}, {}, {}] := rfl
  obtain ⟨whole, folds⟩ := epochs_fold 2500
  obtain ⟨spent, answered⟩ := (catchUp_whole applier start failing).2 whole rfl folds (by
    intro e among
    have held : e ∈ epochs 0 2500 := among
    obtain ⟨version, inside, rfl⟩ := List.mem_map.mp held
    exact Nat.lt_trans (List.mem_range'_1.mp inside).2 (by decide))
  rw [still, length, rounds] at answered
  rw [still]
  have line_after := applier.line_catchUp {} [{}, {}, {}] (by simp)
  rcases ran : applier.catchUp {} [{}, {}, {}] with ⟨after, outcome⟩
  rw [ran] at answered line_after
  obtain rfl : outcome = _ := answered
  exact ⟨after, spent, rfl,
    ((catchUp_whole applier start failing).1 [{}, {}, {}] after spent ran).1.trans line_after⟩

end LogApplier

end Oqueue
