import Oqueue.Coordinator.Leadership

/-!
# The serving index is never mis-based

Every pass over the log keeps the index a fold of the log's beginning, whatever the
reads answer and wherever the pass gives up. A publish adds one entry to it only when
it holds everything before that entry, which the order of the log lets it tell from
one version.
-/

namespace Oqueue

open Checked Follower

namespace Shared

structure Following (shared : Shared) : Prop where
  ascending : MetadataLog.Ascending shared.line
  follows : Tracks shared.line shared.cell

/-- Only the log's end has moved, and in order. -/
structure Grows (before after : Shared) : Prop where
  isPrefix : before.line <+: after.line
  ascending : MetadataLog.Ascending before.line → MetadataLog.Ascending after.line

theorem Grows.refl (self : Shared) : Grows self self := ⟨List.prefix_refl _, id⟩

theorem Grows.trans {a b c : Shared} (first : Grows a b) (second : Grows b c) : Grows a c :=
  ⟨first.isPrefix.trans second.isPrefix, second.ascending ∘ first.ascending⟩

theorem Following.cleared {self : Shared} (ascending : MetadataLog.Ascending self.line) :
    self.clear.Following :=
  ⟨ascending, Tracks.cleared _ _⟩

section
variable {self after : Shared} {page : List MetadataEntry}

theorem read_spec {next : LogRead} {start : Nat} {answer : Except Error (List MetadataEntry)}
    (h : self.read next start = (after, answer)) :
    Grows self after ∧ after.cell = self.cell ∧
      ∀ page, answer = .ok page → ∃ seen, page = MetadataLog.readFrom after.line seen start := by
  cases h
  refine ⟨⟨prefix_grow _ _, fun ascending => ascending.grow _⟩, rfl, ?_⟩
  intro page hpage
  cases hseen : next.seen with
  | error error =>
    rw [hseen] at hpage
    cases hpage
  | ok seen =>
    rw [hseen] at hpage
    cases hpage
    exact ⟨seen, rfl⟩

theorem Following.read (following : self.Following) {next : LogRead} {start : Nat}
    {answer : Except Error (List MetadataEntry)} (h : self.read next start = (after, answer)) :
    after.Following := by
  obtain ⟨grows, same, -⟩ := read_spec h
  refine ⟨grows.ascending following.ascending, ?_⟩
  rw [same]
  exact following.follows.mono grows.isPrefix

theorem fold_eq_ok : self.fold page = .ok after ↔
    after.line = self.line ∧ self.cell.apply page = .ok after.cell := by
  unfold fold
  cases h : self.cell.apply page with
  | error error => simp [Except.map]
  | ok cell =>
    obtain ⟨line, held⟩ := after
    simp only [Except.map, Except.ok.injEq, Shared.mk.injEq]
    constructor
    · rintro ⟨rfl, rfl⟩
      exact ⟨rfl, rfl⟩
    · rintro ⟨rfl, rfl⟩
      exact ⟨rfl, rfl⟩

theorem Grows.fold (h : self.fold page = .ok after) : Grows self after := by
  obtain ⟨same, -⟩ := fold_eq_ok.mp h
  exact ⟨by rw [same], by rw [same]; exact id⟩

theorem Following.fold (following : self.Following) (h : self.fold page = .ok after)
    (next : self.cell.folded ++ page <+: self.line) :
    after.Following ∧ after.cell.folded = self.cell.folded ++ page := by
  obtain ⟨same, happly⟩ := fold_eq_ok.mp h
  rw [← same] at next
  have before : Tracks after.line self.cell := by
    rw [same]
    exact following.follows
  obtain ⟨follows, folded⟩ := before.apply happly next
  exact ⟨⟨by rw [same]; exact following.ascending, follows⟩, folded⟩

theorem Following.appliedUpto (following : self.Following) {front : List MetadataEntry}
    {tail : MetadataEntry} (folded : self.cell.folded = front ++ page)
    (htail : page.getLast? = some tail) : self.cell.appliedUpto = some tail.version := by
  rw [following.follows.appliedUpto, folded, List.getLast?_append, htail]
  rfl

end

theorem Following.foldNext {self mid after : Shared} {next : LogRead} {start : Nat}
    {page : List MetadataEntry} {tail : MetadataEntry} (following : self.Following)
    (reached : start = self.cell.appliedUpto.elim 0 (· + 1))
    (hread : self.read next start = (mid, .ok page)) (htail : page.getLast? = some tail)
    (hfold : mid.fold page = .ok after) :
    Grows self after ∧ after.Following ∧ after.cell.appliedUpto = some tail.version := by
  obtain ⟨grows, same, page_eq⟩ := read_spec hread
  obtain ⟨seen, hpage⟩ := page_eq page rfl
  have read := following.read hread
  rw [← same] at reached
  have next := read.follows.read_next read.ascending reached seen
  rw [← hpage] at next
  obtain ⟨folds, folded⟩ := read.fold hfold next
  exact ⟨grows.trans (Grows.fold hfold), folds, folds.appliedUpto folded htail⟩

/-- From an index that holds the log up to where the pass stands, a rebuild ends with one
that follows the log. -/
theorem Following.rebuildPages (reads : List LogRead) {start : Nat} {self : Shared}
    (following : self.Following) (reached : start = self.cell.appliedUpto.elim 0 (· + 1)) :
    Grows self (rebuildPages reads start self) ∧ (rebuildPages reads start self).Following := by
  fun_induction Shared.rebuildPages reads start self with
  | case1 start self => exact ⟨⟨List.prefix_refl _, id⟩, .cleared following.ascending⟩
  | case2 next reads start self mid error hread =>
    obtain ⟨grows, -, -⟩ := read_spec hread
    exact ⟨⟨grows.isPrefix, grows.ascending⟩, .cleared (following.read hread).ascending⟩
  | case3 next reads start self mid page hread hnone =>
    exact ⟨(read_spec hread).1, following.read hread⟩
  | case4 next reads start self mid page hread tail htail error hfold =>
    obtain ⟨grows, -, -⟩ := read_spec hread
    exact ⟨⟨grows.isPrefix, grows.ascending⟩, .cleared (following.read hread).ascending⟩
  | case5 next reads start self mid page hread tail htail held hfold error hadvance =>
    obtain ⟨grows, folds, -⟩ := following.foldNext reached hread htail hfold
    exact ⟨grows, folds⟩
  | case6 next reads start self mid page hread tail htail held hfold start' hadvance ih =>
    obtain ⟨grows, folds, upto⟩ := following.foldNext reached hread htail hfold
    obtain ⟨rfl, -⟩ := CommitVersion.advance_eq_ok.mp hadvance
    obtain ⟨further, ends⟩ := ih folds (by rw [upto, Option.elim_some])
    exact ⟨grows.trans further, ends⟩

theorem rebuild_following (reads : List LogRead) {self : Shared}
    (ascending : MetadataLog.Ascending self.line) :
    Grows self (self.rebuild reads) ∧ (self.rebuild reads).Following := by
  have start : 0 = self.clear.cell.appliedUpto.elim 0 (· + 1) := rfl
  obtain ⟨grows, following⟩ := (Following.cleared ascending).rebuildPages reads start
  exact ⟨⟨grows.isPrefix, grows.ascending⟩, following⟩

/-- A replay's pages: the index follows the log wherever the replay stops, and a whole one
ends at the version the index holds. -/
theorem Following.foldPages {reads : List LogRead} {page : List MetadataEntry} {self : Shared}
    {allocator : Allocator} {last : Option Nat} (following : self.Following)
    (next : self.cell.folded ++ page <+: self.line) (reached : last = self.cell.appliedUpto)
    {after : Shared} {outcome : Except CoordinatorError (Allocator × Option Nat)}
    (h : foldPages reads page self allocator last = (after, outcome)) :
    Grows self after ∧ after.Following ∧
      ∀ replayed, outcome = .ok replayed → replayed.2 = after.cell.appliedUpto := by
  fun_induction Shared.foldPages reads page self allocator last with
  | case1 reads page self allocator last hnone =>
    cases h
    refine ⟨Grows.refl _, following, ?_⟩
    rintro replayed hreplayed
    cases hreplayed
    exact reached
  | case2 | case3 =>
    cases h
    exact ⟨Grows.refl _, following, by rintro _ ⟨⟩⟩
  | case4 reads page self allocator last tail htail allocator' hreplay held hfold =>
    cases h
    exact ⟨Grows.fold hfold, (following.fold hfold next).1, by rintro _ ⟨⟩⟩
  | case5 page self allocator last tail htail allocator' hreplay held hfold =>
    cases h
    exact ⟨Grows.fold hfold, (following.fold hfold next).1, by rintro _ ⟨⟩⟩
  | case6 page self allocator last tail htail allocator' hreplay held hfold start hadvance next'
      reads mid error hread =>
    cases h
    have folds := (following.fold hfold next).1
    exact ⟨(Grows.fold hfold).trans (read_spec hread).1, folds.read hread, by rintro _ ⟨⟩⟩
  | case7 page self allocator last tail htail allocator' hreplay held hfold start hadvance next'
      reads mid page' hread ih =>
    obtain ⟨folds, folded⟩ := following.fold hfold next
    have upto := folds.appliedUpto folded htail
    obtain ⟨grows, same, page_eq⟩ := read_spec hread
    obtain ⟨seen, hpage⟩ := page_eq page' rfl
    have read := folds.read hread
    obtain ⟨rfl, -⟩ := CommitVersion.advance_eq_ok.mp hadvance
    have after' := read.follows.read_next read.ascending
      (show tail.version + 1 = _ by rw [same, upto, Option.elim_some]) seen
    rw [← hpage] at after'
    obtain ⟨further, ends, whole⟩ := ih read after' (by rw [same, upto]) h
    exact ⟨(Grows.fold hfold).trans (grows.trans further), ends, whole⟩

/-- Whatever the index was, a replay that succeeds leaves one that follows the log. -/
theorem replay_following {reads : List LogRead} {self after : Shared}
    (ascending : MetadataLog.Ascending self.line)
    {outcome : Except CoordinatorError (Allocator × Option Nat)}
    (h : self.replay reads = (after, outcome)) :
    Grows self after ∧ ∀ replayed, outcome = .ok replayed →
      after.Following ∧ replayed.2 = after.cell.appliedUpto := by
  cases reads with
  | nil =>
    cases h
    exact ⟨Grows.refl _, by rintro _ ⟨⟩⟩
  | cons next reads =>
    rw [replay] at h
    cases hread : self.read next 0 with
    | mk mid answer =>
    rw [hread] at h
    obtain ⟨grows, same, page_eq⟩ := read_spec hread
    cases answer with
    | error source =>
      cases h
      exact ⟨grows, by rintro _ ⟨⟩⟩
    | ok page =>
      obtain ⟨seen, hpage⟩ := page_eq page rfl
      have cleared : mid.clear.Following := .cleared (grows.ascending ascending)
      have next := cleared.follows.read_next cleared.ascending
        (show 0 = mid.clear.cell.appliedUpto.elim 0 (· + 1) from rfl) seen
      rw [show MetadataLog.readFrom mid.clear.line seen 0 = page from hpage.symm] at next
      cases hfold : Shared.foldPages reads page mid.clear {} none with
      | mk last folded =>
      obtain ⟨further, ends, whole⟩ := cleared.foldPages next rfl hfold
      have grown : Grows self last := grows.trans ⟨further.isPrefix, further.ascending⟩
      dsimp only at h
      rw [hfold] at h
      cases folded with
      | error error =>
        cases h
        exact ⟨⟨grown.isPrefix, grown.ascending⟩, by rintro _ ⟨⟩⟩
      | ok replayed =>
        cases h
        refine ⟨grown, ?_⟩
        rintro _ ⟨⟩
        exact ⟨ends, whole replayed rfl⟩

theorem Following.foldMissing {self mid after : Shared} {next : LogRead} {start : Nat}
    {page : List MetadataEntry} (following : self.Following)
    (reached : start = 0 ∨ ∃ tail ∈ self.cell.folded, start = tail.version + 1)
    (hread : self.read next start = (mid, .ok page))
    (hfold : mid.fold (missing MetadataEntry.version mid.cell.appliedUpto page) = .ok after) :
    Grows self after ∧ after.Following ∧ ∀ entry ∈ page, entry ∈ after.cell.folded := by
  obtain ⟨grows, same, page_eq⟩ := read_spec hread
  obtain ⟨seen, hpage⟩ := page_eq page rfl
  have read := following.read hread
  rw [← same] at reached
  obtain ⟨next, held⟩ := read.follows.read_missing read.ascending reached seen
  rw [← hpage] at next held
  obtain ⟨folds, folded⟩ := read.fold hfold next
  rw [← folded] at held
  exact ⟨grows.trans (Grows.fold hfold), folds, held⟩

/-- A refold keeps the index following the log wherever it stops: it adds what the index
lacks of each page, even when the index was ahead of the pages. -/
theorem Following.refoldPages {reads : List LogRead} {start : Nat} {self : Shared}
    {allocator : Allocator} {last : Option Nat} (following : self.Following)
    (reached : start = 0 ∨ ∃ tail ∈ self.cell.folded, start = tail.version + 1)
    {after : Shared} {outcome : Option (Allocator × Option Nat)}
    (h : refoldPages reads start self allocator last = (after, outcome)) :
    Grows self after ∧ after.Following := by
  fun_induction Shared.refoldPages reads start self allocator last with
  | case1 =>
    cases h
    exact ⟨Grows.refl _, following⟩
  | case2 next reads start self allocator last mid error hread =>
    cases h
    exact ⟨(read_spec hread).1, following.read hread⟩
  | case3 next reads start self allocator last mid page hread =>
    cases h
    exact ⟨(read_spec hread).1, following.read hread⟩
  | case4 next reads start self allocator last mid page hread =>
    cases h
    exact ⟨(read_spec hread).1, following.read hread⟩
  | case5 next reads start self allocator last mid page hread =>
    cases h
    exact ⟨(read_spec hread).1, following.read hread⟩
  | case6 next reads start self allocator last mid page hread tail htail allocator' hreplay held
      hfold =>
    cases h
    obtain ⟨grows, folds, -⟩ := following.foldMissing reached hread hfold
    exact ⟨grows, folds⟩
  | case7 next reads start self allocator last mid page hread tail htail allocator' hreplay held
      hfold start' hadvance ih =>
    obtain ⟨grows, folds, all⟩ := following.foldMissing reached hread hfold
    obtain ⟨rfl, -⟩ := CommitVersion.advance_eq_ok.mp hadvance
    have tailHeld := all tail (List.mem_of_getLast? htail)
    obtain ⟨further, ends⟩ := ih folds (.inr ⟨tail, tailHeld, rfl⟩) h
    exact ⟨grows.trans further, ends⟩

theorem readsOn {last : Option Nat} {start : Nat}
    (h : last.elim (.ok 0) (fun last => (CommitVersion.advance last 1).mapError
      (CoordinatorError.unreplayable last)) = .ok start) : start = last.elim 0 (· + 1) := by
  cases last with
  | none =>
    cases h
    rfl
  | some last => exact (CommitVersion.advance_eq_ok.mp ((accepts_mapError _).mp h)).1

/-- A standby's index follows the log wherever a catch-up stops. -/
theorem Following.catchUp {reads : List LogRead} {self : Shared} {allocator : Allocator}
    {last : Option Nat} (following : self.Following) (reached : last = self.cell.appliedUpto)
    {after : Shared × Allocator × Option Nat} {outcome : Except CoordinatorError Unit}
    (h : catchUp reads self allocator last = (after, outcome)) :
    Grows self after.1 ∧ after.1.Following ∧ after.2.2 = after.1.cell.appliedUpto := by
  fun_induction Shared.catchUp reads self allocator last with
  | case1 | case2 =>
    cases h
    exact ⟨Grows.refl _, following, reached⟩
  | case3 self allocator last start hstart next reads mid error hread =>
    cases h
    obtain ⟨grows, same, -⟩ := read_spec hread
    exact ⟨grows, following.read hread, by rw [same]; exact reached⟩
  | case4 self allocator last start hstart next reads mid page hread =>
    cases h
    obtain ⟨grows, same, -⟩ := read_spec hread
    exact ⟨grows, following.read hread, by rw [same]; exact reached⟩
  | case5 self allocator last start hstart next reads mid page hread =>
    cases h
    obtain ⟨grows, same, -⟩ := read_spec hread
    exact ⟨grows, following.read hread, by rw [same]; exact reached⟩
  | case6 self allocator last start hstart next reads mid page hread =>
    cases h
    obtain ⟨grows, same, -⟩ := read_spec hread
    exact ⟨grows, following.read hread, by rw [same]; exact reached⟩
  | case7 self allocator last start hstart next reads mid page hread tail htail allocator' hreplay
      held hfold ih =>
    have from_ := readsOn hstart
    rw [reached] at from_
    obtain ⟨grows, folds, upto⟩ := following.foldNext from_ hread htail hfold
    obtain ⟨further, ends, last'⟩ := ih folds upto.symm h
    exact ⟨grows.trans further, ends, last'⟩

end Shared

open Shared

namespace Leader

/-- What holds between turns: the log is in order, the index follows it once the log has been
replayed, and every publish announced what the index held, of an index that followed it. -/
structure Inv (leader : Leader) : Prop where
  ascending : MetadataLog.Ascending leader.line
  follows : leader.pendingReplay = false → Tracks leader.line leader.cell
  published : ∀ p ∈ leader.published,
    p.announced = p.cell.appliedUpto ∧ Tracks leader.line p.cell

variable {leader : Leader}

theorem Inv.following (inv : leader.Inv) (replayed : leader.pendingReplay = false) :
    leader.Following :=
  ⟨inv.ascending, inv.follows replayed⟩

theorem Inv.shared (inv : leader.Inv) {after : Leader} (grows : Grows leader.toShared after.toShared)
    (same : after.published = leader.published)
    (follows : after.pendingReplay = false → Tracks after.line after.cell) : after.Inv where
  ascending := grows.ascending inv.ascending
  follows := follows
  published := by
    rw [same]
    intro p hp
    obtain ⟨announced, held⟩ := inv.published p hp
    exact ⟨announced, held.mono grows.isPrefix⟩

theorem Inv.publishApplied (inv : leader.Inv) (follows : Tracks leader.line leader.cell) :
    leader.publishApplied.Inv where
  ascending := inv.ascending
  follows := fun _ => follows
  published := by
    intro p hp
    rcases List.mem_append.mp hp with hp | hp
    · exact inv.published p hp
    · rw [List.mem_singleton] at hp
      subst hp
      exact ⟨rfl, follows⟩

theorem indexPrecedes_eq (version : Nat) (h : leader.indexPrecedes version = true) :
    leader.cell.appliedUpto.elim (version = 0) fun held => held + 1 = version := by
  unfold indexPrecedes at h
  cases hupto : leader.cell.appliedUpto with
  | none =>
    rw [hupto, Option.elim_none] at h
    rw [Option.elim_none]
    exact of_decide_eq_true h
  | some applied =>
    rw [hupto, Option.elim_some] at h
    cases hadvance : CommitVersion.advance applied 1 with
    | error error =>
      rw [hadvance] at h
      cases h
    | ok next =>
      rw [hadvance] at h
      obtain ⟨rfl, -⟩ := CommitVersion.advance_eq_ok.mp hadvance
      rw [Option.elim_some]
      exact of_decide_eq_true h

/-- The entry the log has just taken is folded onto everything before it, or the index is
rebuilt from the log, or given up on with nothing left in it. -/
theorem indexing_following {before : List MetadataEntry} {entry : MetadataEntry}
    (ascending : MetadataLog.Ascending before) (takes : MetadataLog.Takes before entry)
    (taken : leader.line = before ++ [entry]) (held : Tracks before leader.cell)
    (reads : List LogRead) :
    Grows leader.toShared (leader.indexing reads entry) ∧
      (leader.indexing reads entry).Following := by
  have after : MetadataLog.Ascending leader.line := by
    rw [taken]
    exact ascending.snoc takes
  unfold indexing
  split
  · rename_i precedes
    have next := held.next_entry ascending takes (indexPrecedes_eq entry.version precedes)
    have following : leader.Following := by
      refine ⟨after, held.mono ?_⟩
      rw [taken]
      exact List.prefix_append ..
    cases hfold : leader.fold [entry] with
    | error error => exact ⟨⟨List.prefix_refl _, id⟩, .cleared after⟩
    | ok shared =>
      rw [← taken] at next
      exact ⟨Grows.fold hfold, (following.fold hfold (by rw [next])).1⟩
  · exact rebuild_following reads after

theorem Inv.publish (inv : leader.Inv) {before : List MetadataEntry} {entry : MetadataEntry}
    (ascending : MetadataLog.Ascending before) (takes : MetadataLog.Takes before entry)
    (taken : leader.line = before ++ [entry]) (held : Tracks before leader.cell)
    (reads : List LogRead) : (leader.publish reads entry).Inv := by
  obtain ⟨grows, following⟩ := indexing_following ascending takes taken held reads
  have moved : ({ leader with toShared := leader.indexing reads entry } : Leader).Inv :=
    inv.shared grows rfl fun _ => following.follows
  have told := moved.publishApplied following.follows
  exact ⟨told.ascending, told.follows, told.published⟩

/-- An append that is answered has put the entry at the end of the log; one that is not has
at most done so. -/
theorem append_spec (line : List MetadataEntry) (entry : MetadataEntry) (appended : Appended)
    {line' : List MetadataEntry} {answer : Except Error Unit}
    (h : MetadataLog.append line entry appended = (line', answer)) :
    (answer = .ok () → MetadataLog.Takes line entry ∧ line' = line ++ [entry]) ∧
      line <+: line' ∧ (MetadataLog.Ascending line → MetadataLog.Ascending line') := by
  have kept : line <+: line ∧ (MetadataLog.Ascending line → MetadataLog.Ascending line) :=
    ⟨List.prefix_refl _, id⟩
  have added : MetadataLog.Takes line entry → line <+: line ++ [entry] ∧
      (MetadataLog.Ascending line → MetadataLog.Ascending (line ++ [entry])) :=
    fun takes => ⟨List.prefix_append .., fun ascending => ascending.snoc takes⟩
  cases appended with
  | refused error =>
    cases h
    exact ⟨by rintro ⟨⟩, kept⟩
  | stored =>
    unfold MetadataLog.append at h
    dsimp only at h
    split at h
    · rename_i takes
      cases h
      exact ⟨fun _ => ⟨takes, rfl⟩, added takes⟩
    · cases h
      exact ⟨by rintro ⟨⟩, kept⟩
  | unanswered error =>
    cases h
    refine ⟨by rintro ⟨⟩, ?_⟩
    split
    · rename_i takes
      exact added takes
    · exact kept

/-- Journaling moves only the log's end, and the term a refusal voids. -/
theorem journal_spec {turn : Turn} {entry : MetadataEntry} {after : Leader}
    {answer : Except CoordinatorError Unit} (h : leader.journal turn entry = (after, answer)) :
    Grows leader.toShared after.toShared ∧ after.cell = leader.cell ∧
      after.published = leader.published ∧ after.pendingReplay = leader.pendingReplay ∧
      (answer = .ok () → ∃ before, leader.line <+: before ∧
        (MetadataLog.Ascending leader.line → MetadataLog.Ascending before) ∧
        MetadataLog.Takes before entry ∧ after.line = before ++ [entry]) := by
  unfold journal at h
  cases happend : MetadataLog.append (MetadataLog.grow leader.line turn.grown) entry
    turn.appended with
  | mk line appended =>
  rw [happend] at h
  have grown : leader.line <+: MetadataLog.grow leader.line turn.grown := prefix_grow ..
  obtain ⟨stored, longer, ordered⟩ := append_spec _ _ _ happend
  have grows : Grows leader.toShared ⟨line, leader.cell⟩ :=
    ⟨grown.trans longer, fun ascending => ordered (ascending.grow _)⟩
  cases appended with
  | error error =>
    cases h
    exact ⟨grows, rfl, rfl, rfl, by rintro ⟨⟩⟩
  | ok _ =>
    cases h
    obtain ⟨takes, rfl⟩ := stored rfl
    exact ⟨grows, rfl, rfl, rfl, fun _ => ⟨_, grown, fun ascending => ascending.grow _, takes, rfl⟩⟩

theorem Inv.write (inv : leader.Inv) (replayed : leader.pendingReplay = false) (turn : Turn)
    (staged : Except Error Allocator.Staged) : (leader.write turn staged).1.Inv := by
  unfold Leader.write
  cases staged with
  | error source => exact inv
  | ok staged =>
    dsimp only
    split
    · exact inv
    · cases hjournal : leader.journal turn staged.entry with
      | mk after answer =>
      obtain ⟨grows, same, published, pending, stored⟩ := journal_spec hjournal
      have held := inv.follows replayed
      have kept : after.Inv := by
        refine inv.shared grows published fun _ => ?_
        rw [same]
        exact held.mono grows.isPrefix
      cases answer with
      | error error => exact kept
      | ok _ =>
        obtain ⟨before, longer, ordered, takes, taken⟩ := stored rfl
        dsimp only
        unfold stillLeadsAfterAppend
        cases after.leads turn.heldAfterAppend with
        | false => exact ⟨kept.ascending, kept.follows, kept.published⟩
        | true =>
          have follows : Tracks before after.cell := by
            rw [same]
            exact held.mono longer
          have takenInv : ({ after with
              allocator := (after.allocator.apply staged).1
              lastCommitted := some staged.entry.version } : Leader).Inv :=
            ⟨kept.ascending, kept.follows, kept.published⟩
          exact takenInv.publish (ordered inv.ascending) takes taken follows _

theorem Inv.tryReplay (inv : leader.Inv) {reads : List LogRead} {after : Leader} {served : Bool}
    (h : leader.tryReplay reads = (after, served)) :
    after.Inv ∧ (served = true → after.pendingReplay = false) := by
  unfold Leader.tryReplay at h
  split at h
  · cases h
    exact ⟨inv, fun _ => by simp_all⟩
  · rename_i pending
    cases hreplay : leader.replay reads with
    | mk shared outcome =>
    obtain ⟨grows, whole⟩ := replay_following inv.ascending hreplay
    rw [hreplay] at h
    cases outcome with
    | error error =>
      cases h
      refine ⟨inv.shared grows rfl ?_, by rintro ⟨⟩⟩
      intro replayed
      exact absurd replayed (by simpa using pending)
    | ok replayed =>
      obtain ⟨following, -⟩ := whole replayed rfl
      cases h
      refine ⟨?_, fun _ => rfl⟩
      have moved : ({ leader with
          toShared := shared
          allocator := replayed.1
          lastCommitted := replayed.2
          pendingReplay := false } : Leader).Inv :=
        inv.shared grows rfl fun _ => following.follows
      exact moved.publishApplied following.follows

theorem Inv.currentForTerm (inv : leader.Inv) (replayed : leader.pendingReplay = false)
    {turn : Turn} {after : Leader} {current : Bool}
    (h : leader.currentForTerm turn = (after, current)) :
    after.Inv ∧ after.pendingReplay = false := by
  unfold Leader.currentForTerm at h
  split at h
  · cases h
    exact ⟨inv, replayed⟩
  · split at h
    · cases h
      exact ⟨inv, replayed⟩
    · split at h
      · cases h
        exact ⟨inv, replayed⟩
      · cases hrefold : leader.refold turn.refolds with
        | mk shared outcome =>
        obtain ⟨grows, following⟩ := (inv.following replayed).refoldPages (.inl rfl) hrefold
        have moved : ({ leader with toShared := shared } : Leader).Inv :=
          inv.shared grows rfl fun _ => following.follows
        rw [hrefold] at h
        cases outcome with
        | none =>
          cases h
          exact ⟨moved, replayed⟩
        | some line =>
          cases h
          have told := moved.publishApplied following.follows
          exact ⟨⟨told.ascending, told.follows, told.published⟩, replayed⟩

theorem Inv.mayWrite (inv : leader.Inv) {turn : Turn} {after : Leader}
    {answer : Except CoordinatorError Unit} (h : leader.mayWrite turn = (after, answer)) :
    after.Inv ∧ (answer = .ok () → after.pendingReplay = false) := by
  unfold Leader.mayWrite at h
  cases hreplay : leader.tryReplay turn.replays with
  | mk mid served =>
  obtain ⟨replayed, pending⟩ := inv.tryReplay hreplay
  rw [hreplay] at h
  cases served with
  | false =>
    cases h
    exact ⟨replayed, by rintro ⟨⟩⟩
  | true =>
    dsimp only at h
    split at h
    · cases h
      exact ⟨replayed, by rintro ⟨⟩⟩
    · cases hcurrent : mid.currentForTerm turn with
      | mk held current =>
      obtain ⟨inv', replayed'⟩ := replayed.currentForTerm (pending rfl) hcurrent
      rw [hcurrent] at h
      cases current with
      | false =>
        cases h
        exact ⟨inv', by rintro ⟨⟩⟩
      | true =>
        cases h
        exact ⟨inv', fun _ => replayed'⟩

theorem Inv.turn (inv : leader.Inv) (turn : Turn) : (leader.turn turn).Inv := by
  unfold Leader.turn
  cases turn.request with
  | dropCache =>
    have cleared : ({ leader with toShared := leader.toShared.clear } : Leader).Inv :=
      inv.shared ⟨List.prefix_refl _, id⟩ rfl fun _ => Tracks.cleared _ _
    exact cleared.publishApplied (Tracks.cleared _ _)
  | retry =>
    cases hreplay : leader.tryReplay turn.replays with
    | mk after served => exact (inv.tryReplay hreplay).1
  | write request =>
    dsimp only
    cases hmay : leader.mayWrite turn with
    | mk after answer =>
    obtain ⟨inv', pending⟩ := inv.mayWrite hmay
    cases answer with
    | error error => exact inv'
    | ok _ =>
      cases request with
      | commit object spans writtenAt =>
        dsimp only
        unfold serve
        dsimp only
        split
        · exact inv'
        · exact inv'.write (pending rfl) turn _
      | trim topic partition start => exact inv'.write (pending rfl) turn _
      | retention topic retentionMs => exact inv'.write (pending rfl) turn _

theorem Inv.run (inv : leader.Inv) (turns : List Turn) : (leader.run turns).Inv :=
  List.foldlRecOn (motive := Inv) turns _ inv fun _ held turn _ => held.turn turn

end Leader

namespace LeaderOpening

theorem caughtUp_following {line : List MetadataEntry} (ascending : MetadataLog.Ascending line)
    (index : IndexState) (catchUps : List (List LogRead)) :
    (caughtUp line index catchUps).1.Following ∧
      (caughtUp line index catchUps).2.2 = (caughtUp line index catchUps).1.cell.appliedUpto := by
  induction catchUps with
  | nil => exact ⟨⟨ascending, Tracks.cleared _ _⟩, rfl⟩
  | cons reads earlier ih =>
    obtain ⟨-, follows, last⟩ := ih.1.catchUp ih.2 rfl
    exact ⟨follows, last⟩

theorem inv_assemble {shared : Shared} (following : shared.Following) {replayed : Allocator × Option Nat}
    (last : replayed.2 = shared.cell.appliedUpto) (fenced reopening : Bool) :
    (assemble shared fenced reopening replayed false).Inv where
  ascending := following.ascending
  follows := fun _ => following.follows
  published := by
    intro p hp
    rw [show (assemble shared fenced reopening replayed false).published =
      [⟨replayed.2, shared.cell⟩] from rfl, List.mem_singleton] at hp
    subst hp
    exact ⟨last, following.follows⟩

theorem leader_inv {line : List MetadataEntry} (ascending : MetadataLog.Ascending line)
    {fenced reopening : Bool} {opening : LeaderOpening} {leader : Leader}
    (h : opening.leader line fenced reopening = some leader) : leader.Inv := by
  cases opening with
  | deferred index =>
    cases h
    exact ⟨ascending, by rintro ⟨⟩, by rintro p ⟨⟩⟩
  | opened index reads =>
    unfold LeaderOpening.leader at h
    cases hreplay : Shared.replay ⟨line, ⟨index, []⟩⟩ reads with
    | mk shared outcome =>
    obtain ⟨-, whole⟩ := replay_following ascending hreplay
    dsimp only at h
    rw [hreplay] at h
    cases outcome with
    | error error => cases h
    | ok replayed =>
      cases h
      obtain ⟨following, last⟩ := whole replayed rfl
      exact inv_assemble following last fenced reopening
  | promoted index catchUps reads =>
    unfold LeaderOpening.leader at h
    obtain ⟨following, reached⟩ := caughtUp_following ascending index catchUps
    dsimp only at h
    cases hcatch : Shared.catchUp reads (caughtUp line index catchUps).1
      (caughtUp line index catchUps).2.1 (caughtUp line index catchUps).2.2 with
    | mk after outcome =>
    obtain ⟨-, ends, last⟩ := following.catchUp reached hcatch
    rw [hcatch] at h
    cases outcome with
    | error error => cases h
    | ok _ =>
      cases h
      exact inv_assemble ends last fenced reopening

end LeaderOpening

namespace Leader

/-- However a loop comes to be and whatever its turns meet, every publish announced the
version its index held, and that index was empty or the fold of the log from its first
entry up to that version: each of those entries folded once, in order, none left out. And
so is the index after any turn, once the log has been replayed. -/
theorem serving_index_based (written : List MetadataEntry) (fenced reopening : Bool)
    (opening : LeaderOpening) (leader : Leader) (turns : List Turn)
    (opened : opening.leader (MetadataLog.grow [] written) fenced reopening = some leader) :
    (∀ p ∈ (leader.run turns).published, p.announced = p.cell.appliedUpto ∧
      ((p.cell.index = p.cell.index.clear ∧ p.cell.folded = []) ∨
        ∃ last, p.announced = some last ∧
          p.cell.folded = MetadataLog.upTo (leader.run turns).line last ∧
          (MetadataLog.upTo (leader.run turns).line last).Pairwise
            (fun a b => a.version < b.version) ∧
          IndexState.new.apply (MetadataLog.upTo (leader.run turns).line last) =
            .ok p.cell.index.unbounded)) ∧
    ((leader.run turns).pendingReplay = false →
      ((leader.run turns).cell.index = (leader.run turns).cell.index.clear ∧
          (leader.run turns).cell.folded = []) ∨
        ∃ last, (leader.run turns).cell.index.appliedUpto = some last ∧
          (leader.run turns).cell.folded = MetadataLog.upTo (leader.run turns).line last ∧
          IndexState.new.apply (MetadataLog.upTo (leader.run turns).line last) =
            .ok (leader.run turns).cell.index.unbounded) := by
  have start : MetadataLog.Ascending (MetadataLog.grow [] written) :=
    Ascending.grow List.Pairwise.nil written
  have inv := (LeaderOpening.leader_inv start opened).run turns
  refine ⟨?_, fun replayed => (inv.follows replayed).based inv.ascending⟩
  intro p hp
  obtain ⟨announced, follows⟩ := inv.published p hp
  refine ⟨announced, ?_⟩
  rcases follows.based inv.ascending with empty | ⟨last, upto, folded, fold⟩
  · exact .inl empty
  · exact .inr ⟨last, announced.trans upto, folded, inv.ascending.filter _, fold⟩

/-- A commit after a replay, one that another leader's entry overtakes, and, under the next
term, a commit onto what the refold added. -/
def overtaken : List Turn :=
  let commit (object : String) (count : Nat) : LeaderRequest :=
    .write (.commit ⟨object⟩ [⟨⟨"t"⟩, 0, count, .full, none⟩] 5)
  [{ request := commit "a" 2, replays := [⟨[], .ok 9⟩], term := some 1, refolds := [⟨[], .ok 9⟩] },
    { request := commit "b" 3, term := some 1,
      grown := [⟨1, .batchCommitted ⟨"c"⟩ [⟨⟨"t"⟩, 0, 4, .full, none⟩] 6⟩],
      appended := .refused (.preconditionFailed "1") },
    { request := commit "b" 3, term := some 3, refolds := [⟨[], .ok 9⟩, ⟨[], .ok 9⟩] }]

theorem serving_index_based_overtaken :
    ∃ leader, (LeaderOpening.deferred .new).leader (MetadataLog.grow [] []) true true = some leader ∧
      (leader.run overtaken).published.map Publication.announced =
        [none, none, some 0, some 1, some 2] ∧
      ∀ p ∈ (leader.run overtaken).published, p.announced = p.cell.appliedUpto := by
  refine ⟨_, rfl, by decide, ?_⟩
  intro p hp
  exact ((serving_index_based [] true true (.deferred .new) _ overtaken rfl).1 p hp).1

end Leader

end Oqueue
