import Oqueue.Index.Counts
import Oqueue.Library.Follower

/-!
# An index that follows the log

Whoever serves an index folds pages of the log into it, or empties it. What was
folded since it was last empty is kept beside it here, so that being based on the
log can be said: the folded entries are the log's, from its first one on, with
none left out.
-/

namespace Oqueue

open Checked Follower

namespace MetadataLog

/-- The log takes an entry whose version is above its last. -/
abbrev Takes (line : List MetadataEntry) (entry : MetadataEntry) : Prop :=
  Follower.Takes MetadataEntry.version line entry

abbrev Ascending (line : List MetadataEntry) : Prop :=
  Follower.Ascending MetadataEntry.version line

/-- The log after others have appended to it what its order lets them. -/
abbrev grow (line entries : List MetadataEntry) : List MetadataEntry :=
  Follower.grow MetadataEntry.version line entries

abbrev upTo (line : List MetadataEntry) (version : Nat) : List MetadataEntry :=
  Follower.upTo MetadataEntry.version line version

def rebuildPageEntries : Nat := 1024

/-- A page read from `start`, by a view of the log that sees its first `seen` entries. -/
def readFrom (line : List MetadataEntry) (seen start : Nat) : List MetadataEntry :=
  Follower.page MetadataEntry.version (line.take seen) start rebuildPageEntries

end MetadataLog

/-- A materialized index, with what was folded into it since it was last empty. -/
structure Cell where
  index : IndexState
  folded : List MetadataEntry := []

namespace Cell

def clear (self : Cell) : Cell := ⟨self.index.clear, []⟩

def apply (self : Cell) (entries : List MetadataEntry) : Except Error Cell := do
  let index ← self.index.apply entries
  return ⟨index, self.folded ++ entries⟩

def appliedUpto (self : Cell) : Option Nat := self.index.appliedUpto

end Cell

namespace IndexState

theorem advance_appliedUpto {s t : IndexState} {entry : MetadataEntry}
    (h : s.advance entry = .ok t) : t.appliedUpto = some entry.version :=
  (apply_entry_version (advance_unbounded h)).2

theorem foldlM_advance_appliedUpto {s t : IndexState} {entries : List MetadataEntry}
    (h : entries.foldlM advance s = .ok t) :
    t.appliedUpto = (entries.getLast?.map MetadataEntry.version).or s.appliedUpto := by
  induction entries using List.reverseRecOn with
  | nil =>
    cases h
    rfl
  | append_singleton before entry _ =>
    rw [foldlM_snoc, bind_eq_ok] at h
    obtain ⟨mid, -, hstep⟩ := h
    rw [advance_appliedUpto hstep]
    simp

theorem foldlM_advance_unbounded {s t : IndexState} {entries : List MetadataEntry}
    (h : entries.foldlM advance s = .ok t) :
    entries.foldlM advance s.unbounded = .ok t.unbounded := by
  induction entries generalizing s with
  | nil =>
    cases h
    rfl
  | cons entry rest ih =>
    rw [List.foldlM_cons, bind_eq_ok] at h
    obtain ⟨mid, hstep, hrest⟩ := h
    rw [List.foldlM_cons, bind_eq_ok]
    exact ⟨_, (apply_entry_eq_ok rfl).mp (advance_unbounded hstep), ih hrest⟩

end IndexState

/-- What is folded is the log's own beginning, and folding it from nothing gives the index. -/
structure Tracks (line : List MetadataEntry) (cell : Cell) : Prop where
  isPrefix : cell.folded <+: line
  fold : cell.folded.foldlM IndexState.advance cell.index.clear = .ok cell.index

namespace Tracks

variable {line : List MetadataEntry} {cell : Cell}

theorem cleared (line : List MetadataEntry) (cell : Cell) : Tracks line cell.clear :=
  ⟨List.nil_prefix, rfl⟩

theorem mono (follows : Tracks line cell) {longer : List MetadataEntry}
    (isPrefix : line <+: longer) : Tracks longer cell :=
  ⟨follows.isPrefix.trans isPrefix, follows.fold⟩

theorem appliedUpto (follows : Tracks line cell) :
    cell.appliedUpto = cell.folded.getLast?.map MetadataEntry.version := by
  have last := IndexState.foldlM_advance_appliedUpto follows.fold
  rw [show cell.index.clear.appliedUpto = none from rfl, Option.or_none] at last
  exact last

theorem unbounded (follows : Tracks line cell) :
    IndexState.new.apply cell.folded = .ok cell.index.unbounded :=
  (IndexState.Sound.new.page_agrees rfl _ _).mpr
    (IndexState.foldlM_advance_unbounded follows.fold)

theorem sound (follows : Tracks line cell) : cell.index.Sound := by
  have sound := IndexState.Sound.new.apply follows.unbounded
  exact ⟨sound.wf, sound.exact, sound.counted, sound.noZero⟩

theorem apply (follows : Tracks line cell) {entries : List MetadataEntry} {cell' : Cell}
    (h : cell.apply entries = .ok cell') (next : cell.folded ++ entries <+: line) :
    Tracks line cell' ∧ cell'.folded = cell.folded ++ entries := by
  obtain ⟨index, happly, hcell⟩ := bind_eq_ok.mp h
  cases hcell
  refine ⟨⟨next, ?_⟩, rfl⟩
  have same : index.clear = cell.index.clear := by
    unfold IndexState.clear
    rw [IndexState.quota_apply happly]
  dsimp only
  rw [same, List.foldlM_append, follows.fold, bind_ok]
  exact follows.sound.apply_advance happly

theorem folded_eq (follows : Tracks line cell) (ascending : MetadataLog.Ascending line) :
    cell.folded = cell.appliedUpto.elim [] (MetadataLog.upTo line) := by
  rw [follows.appliedUpto]
  cases hlast : cell.folded.getLast? with
  | none => exact List.getLast?_eq_none_iff.mp hlast
  | some last => exact ascending.prefix_eq_upTo follows.isPrefix hlast

/-- An index that follows the log is empty, or is the fold of the log from its first
entry up to the version it says it holds: each of those entries folded once, in order. -/
theorem based (follows : Tracks line cell) (ascending : MetadataLog.Ascending line) :
    (cell.index = cell.index.clear ∧ cell.folded = []) ∨
      ∃ last, cell.appliedUpto = some last ∧ cell.folded = MetadataLog.upTo line last ∧
        IndexState.new.apply (MetadataLog.upTo line last) = .ok cell.index.unbounded := by
  have whole := follows.folded_eq ascending
  cases hupto : cell.appliedUpto with
  | none =>
    rw [hupto] at whole
    have fold := follows.fold
    rw [whole] at fold
    exact .inl ⟨(Except.ok.inj fold).symm, whole⟩
  | some last =>
    rw [hupto] at whole
    refine .inr ⟨last, rfl, whole, ?_⟩
    have fold := follows.unbounded
    rw [whole] at fold
    exact fold

theorem next_missing (follows : Tracks line cell) (ascending : MetadataLog.Ascending line)
    {entry : MetadataEntry}
    (next : (missing MetadataEntry.version cell.appliedUpto line).head? = some entry) :
    cell.folded ++ [entry] <+: line := by
  rw [follows.appliedUpto] at next
  obtain ⟨rest, rfl⟩ := follows.isPrefix
  rw [ascending.missing_append (fun e he => he) fun e he => he] at next
  obtain ⟨more, rfl⟩ := List.head?_eq_some_iff.mp next
  exact ⟨more, by simp⟩

/-- A page read from right after what is folded is what the log has next. -/
theorem read_next (follows : Tracks line cell) (ascending : MetadataLog.Ascending line)
    {start : Nat} (after : start = cell.appliedUpto.elim 0 (· + 1)) (seen : Nat) :
    cell.folded ++ MetadataLog.readFrom line seen start <+: line := by
  rw [follows.appliedUpto] at after
  obtain ⟨rest, rfl⟩ := follows.isPrefix
  rw [List.prefix_append_right_inj]
  cases hlast : cell.folded.getLast? with
  | none =>
    rw [hlast] at after
    rw [List.getLast?_eq_none_iff] at hlast
    apply page_next
    · rw [hlast]
      intro e he
      cases he
    · intro e _
      rw [after]
      exact Nat.zero_le _
  | some last =>
    rw [hlast] at after
    obtain ⟨below, -, -⟩ := ascending.append
    apply page_next
    · intro e he
      rw [after]
      exact Nat.lt_succ_of_le (below.le_last hlast e he)
    · intro e he
      rw [after]
      exact ascending.beyond (List.mem_of_getLast? hlast) e he

theorem read_missing (follows : Tracks line cell) (ascending : MetadataLog.Ascending line)
    {start : Nat} (after : start = 0 ∨ ∃ tail ∈ cell.folded, start = tail.version + 1)
    (seen : Nat) :
    cell.folded ++ missing MetadataEntry.version cell.appliedUpto
        (MetadataLog.readFrom line seen start) <+: line ∧
      ∀ e ∈ MetadataLog.readFrom line seen start, e ∈ cell.folded ++
        missing MetadataEntry.version cell.appliedUpto (MetadataLog.readFrom line seen start) := by
  rw [follows.appliedUpto]
  obtain ⟨rest, rfl⟩ := follows.isPrefix
  have unread : ∀ e ∈ rest, start ≤ e.version := by
    intro e he
    rcases after with rfl | ⟨tail, held, rfl⟩
    · exact Nat.zero_le _
    · exact ascending.beyond held e he
  obtain ⟨more, hmore, isPrefix, held⟩ :=
    ascending.missing_next unread seen MetadataLog.rebuildPageEntries
  rw [show missing MetadataEntry.version (cell.folded.getLast?.map MetadataEntry.version)
    (MetadataLog.readFrom (cell.folded ++ rest) seen start) = more from hmore]
  exact ⟨(List.prefix_append_right_inj _).mpr isPrefix, held⟩

/-- Appending right after the version an index holds leaves it nothing else to fold. -/
theorem next_entry (follows : Tracks line cell) (ascending : MetadataLog.Ascending line)
    {entry : MetadataEntry} (takes : MetadataLog.Takes line entry)
    (precedes : cell.appliedUpto.elim (entry.version = 0) fun held => held + 1 = entry.version) :
    cell.folded ++ [entry] = line ++ [entry] := by
  obtain ⟨rest, rfl⟩ := follows.isPrefix
  have none_left : rest = [] := by
    apply List.eq_nil_iff_forall_not_mem.mpr
    intro e he
    have below : e.version < entry.version := by
      obtain ⟨-, -, across⟩ := (ascending.snoc takes).append
      exact across e (List.mem_append_right _ he) entry (List.mem_singleton_self _)
    rw [follows.appliedUpto] at precedes
    cases hlast : cell.folded.getLast? with
    | none =>
      rw [hlast] at precedes
      change entry.version = 0 at precedes
      omega
    | some last =>
      rw [hlast] at precedes
      change last.version + 1 = entry.version at precedes
      have above := ascending.beyond (List.mem_of_getLast? hlast) e he
      omega
  rw [none_left, List.append_nil]

end Tracks

end Oqueue
