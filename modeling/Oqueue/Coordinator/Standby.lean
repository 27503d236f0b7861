import Oqueue.Coordinator.Serve
import Oqueue.Index.Paging

/-!
# Replaying a shard's log, cold or ahead of time

A cold start folds the log page by page; a standby has folded whatever views of
it came by, and folds the rest when it is promoted. Both end with the line the
live coordinator had, however the pages fell.
-/

namespace Oqueue

open Checked

/-- How long the page read at each version is; a page is never empty by its length. -/
structure Pager where
  pageLength : Nat → Nat
  positive : ∀ start, 0 < pageLength start

def rebuildPageEntries : Pager := ⟨fun _ => 1024, by simp⟩

/-- What a reader of the log sees, and how its reads are cut. -/
structure LogView where
  entries : List MetadataEntry
  pager : Pager

def LogView.readFrom (self : LogView) (start : Nat) : List MetadataEntry :=
  (self.entries.filter fun entry => decide (start ≤ entry.version)).take
    (self.pager.pageLength start)

/-- A shard's line, folded so far. -/
structure Standby where
  allocator : Allocator := {}
  index : IndexState := .new
  last : Option Nat := none

namespace Standby

def new (index : IndexState) : Standby := { index := index.clear }

def foldPage (self : Standby) (page : List MetadataEntry) (tail : Nat) :
    Except CoordinatorError Standby := do
  let allocator ← page.foldlM (fun (allocator : Allocator) entry =>
    (allocator.replay entry).mapError (.unreplayable entry.version)) self.allocator
  let index ← (self.index.apply page).mapError (.unreplayable tail)
  return ⟨allocator, index, some tail⟩

def nextFrom (self : Standby) : Except CoordinatorError Nat :=
  match self.last with
  | none => .ok 0
  | some last => (CommitVersion.advance last 1).mapError (.unreplayable last)

/-- The rounds of `catchUp`; a round that reads nothing is the last. -/
def catchUpRounds (log : LogView) : Nat → Standby → Nat → Except CoordinatorError (Standby × Nat)
  | 0, self, folded => .ok (self, folded)
  | rounds + 1, self, folded => do
    let start ← self.nextFrom
    let page := log.readFrom start
    match page.getLast? with
    | none => return (self, folded)
    | some tail =>
      let next ← self.foldPage page tail.version
      catchUpRounds log rounds next (folded + page.length)

/-- Folds every entry `log` holds past what was folded; every round reads at least one. -/
def catchUp (self : Standby) (log : LogView) : Except CoordinatorError (Standby × Nat) :=
  catchUpRounds log (log.entries.length + 1) self 0

/-- One last catch-up, then the line a coordinator serves from. -/
def promote (self : Standby) (log : LogView) : Except CoordinatorError Standby := do
  let (caught, _) ← self.catchUp log
  return caught

/-- A standby's whole life: catch-ups over the views that came by, then the promotion. -/
def lead (views : List LogView) (log : LogView) : Except CoordinatorError Standby := do
  let caught ← views.foldlM (fun self view => (self.catchUp view).map Prod.fst) (new .new)
  caught.promote log

end Standby

/-- The rounds of `foldPages`, each with the page it was handed. -/
def foldPagesRounds (log : LogView) :
    Nat → Standby → List MetadataEntry → Except CoordinatorError Standby
  | 0, self, _ => .ok self
  | rounds + 1, self, page =>
    match page.getLast? with
    | none => .ok self
    | some tail => do
      let next ← self.foldPage page tail.version
      let start ← (CommitVersion.advance tail.version 1).mapError (.unreplayable tail.version)
      foldPagesRounds log rounds next (log.readFrom start)

/-- Folds the whole log into a fresh allocator and a cleared index. -/
def coldReplay (log : LogView) (index : IndexState) : Except CoordinatorError Standby :=
  foldPagesRounds log (log.entries.length + 1) (.new index) (log.readFrom 0)

/-- A log an allocator at `next` replays: versions rise from there and never run out. -/
structure Ordered (next : Nat) (log : List MetadataEntry) : Prop where
  ascending : log.Pairwise fun a b => a.version < b.version
  started : ∀ entry ∈ log, next ≤ entry.version
  fits : ∀ entry ∈ log, entry.version + 1 ≤ u64Max

theorem replay_version {a a' : Allocator} {entry : MetadataEntry} (h : a.replay entry = .ok a') :
    a.nextVersion ≤ entry.version ∧ entry.version + 1 ≤ u64Max ∧
      a'.nextVersion = entry.version + 1 := by
  obtain ⟨version, record⟩ := entry
  by_cases commit : ∃ object spans writtenAt, record = .batchCommitted object spans writtenAt
  · obtain ⟨object, spans, writtenAt, rfl⟩ := commit
    obtain ⟨le, staged, hstaged, rfl⟩ := Allocator.replay_commit.mp h
    obtain ⟨acc, -, fits, rfl⟩ := Allocator.stage_eq_ok.mp hstaged
    exact ⟨le, fits, rfl⟩
  · push Not at commit
    obtain ⟨le, fits, rfl⟩ := (Allocator.replay_other commit).mp h
    exact ⟨le, fits, rfl⟩

theorem ordered_of_replay {log : List MetadataEntry} {a a' : Allocator}
    (h : log.foldlM Allocator.replay a = .ok a') : Ordered a.nextVersion log := by
  induction log generalizing a with
  | nil => exact ⟨.nil, by simp, by simp⟩
  | cons entry rest ih =>
    rw [List.foldlM_cons, bind_eq_ok] at h
    obtain ⟨mid, hmid, hrest⟩ := h
    obtain ⟨le, fits, hnext⟩ := replay_version hmid
    obtain ⟨ascending, started, fit⟩ := ih hrest
    rw [hnext] at started
    refine ⟨.cons ?_ ascending, ?_, ?_⟩
    · exact fun e he => started e he
    · intro e he
      rcases List.mem_cons.mp he with rfl | he
      · exact le
      · have := started e he
        omega
    · intro e he
      rcases List.mem_cons.mp he with rfl | he
      · exact fits
      · exact fit e he

/-- Both folds take the first `count` entries. -/
def Accepts (log : List MetadataEntry) (count : Nat) : Prop :=
  ∃ allocator index, (log.take count).foldlM Allocator.replay {} = .ok allocator ∧
    (log.take count).foldlM IndexState.advance .new = .ok index

theorem Accepts.mono {log : List MetadataEntry} {count fewer : Nat} (h : Accepts log count)
    (le : fewer ≤ count) : Accepts log fewer := by
  obtain ⟨allocator, index, hallocator, hindex⟩ := h
  have split : log.take count = log.take fewer ++ (log.take count).drop fewer := by
    conv_lhs => rw [← List.take_append_drop fewer (log.take count)]
    rw [List.take_take, Nat.min_eq_left le]
  rw [split, List.foldlM_append, bind_eq_ok] at hallocator hindex
  obtain ⟨a, ha, -⟩ := hallocator
  obtain ⟨i, hi, -⟩ := hindex
  exact ⟨a, i, ha, hi⟩

namespace Standby

/-- A standby that has folded exactly the first `count` entries of a log. -/
structure Folded (log : List MetadataEntry) (count : Nat) (s : Standby) : Prop where
  le : count ≤ log.length
  allocator : (log.take count).foldlM Allocator.replay {} = .ok s.allocator
  index : (log.take count).foldlM IndexState.advance .new = .ok s.index
  last : s.last = (log.take count).getLast?.map MetadataEntry.version

theorem Folded.unique {log : List MetadataEntry} {count : Nat} {s s' : Standby}
    (h : Folded log count s) (h' : Folded log count s') : s = s' := by
  obtain ⟨allocator, index, last⟩ := s
  obtain ⟨allocator', index', last'⟩ := s'
  have sameAllocator := h.allocator.symm.trans h'.allocator
  have sameIndex := h.index.symm.trans h'.index
  have sameLast := h.last.trans h'.last.symm
  dsimp only at sameAllocator sameIndex sameLast
  cases sameAllocator
  cases sameIndex
  cases sameLast
  rfl

theorem Folded.initial (log : List MetadataEntry) : Folded log 0 (new .new) where
  le := Nat.zero_le _
  allocator := rfl
  index := rfl
  last := rfl

section
variable {log : List MetadataEntry} {count : Nat} {s : Standby}

theorem Folded.sound (folded : Folded log count s) : s.index.Sound ∧ s.index.quota = none := by
  have agrees := IndexState.Sound.new.page_agrees rfl (log.take count)
  have happly := (agrees s.index).mpr folded.index
  exact ⟨IndexState.Sound.new.apply happly, IndexState.quota_apply happly⟩

/-- The next read of any view of the log starts right after what was folded. -/
theorem Folded.readFrom (ordered : Ordered 0 log) (folded : Folded log count s) :
    ∃ start, s.nextFrom = .ok start ∧ ∀ view : LogView, view.entries <+: log →
      view.readFrom start = (view.entries.drop count).take (view.pager.pageLength start) := by
  have cut : ∃ start, s.nextFrom = .ok start ∧ (∀ e ∈ log.take count, e.version < start) ∧
      ∀ e ∈ log.drop count, start ≤ e.version := by
    unfold nextFrom
    rw [folded.last]
    cases hlast : (log.take count).getLast? with
    | none =>
      have empty : log.take count = [] := by simpa using hlast
      exact ⟨0, rfl, by simp [empty], fun e _ => Nat.zero_le _⟩
    | some tail =>
      obtain ⟨front, hfront⟩ := List.getLast?_eq_some_iff.mp hlast
      have inLog : tail ∈ log := List.mem_of_mem_take (by rw [hfront]; simp)
      have ascending := ordered.ascending
      rw [← List.take_append_drop count log, hfront] at ascending
      obtain ⟨before, -, across⟩ := List.pairwise_append.mp ascending
      obtain ⟨-, -, below⟩ := List.pairwise_append.mp before
      refine ⟨tail.version + 1, ?_, ?_, ?_⟩
      · simp only [Option.map_some]
        rw [CommitVersion.advance_eq_ok.mpr ⟨rfl, ordered.fits tail inLog⟩]
        rfl
      · intro e he
        rw [hfront] at he
        rcases List.mem_append.mp he with h | h
        · exact Nat.lt_succ_of_lt (below e h tail (by simp))
        · rw [List.mem_singleton] at h
          subst h
          exact Nat.lt_succ_self _
      · intro e he
        exact across tail (by simp) e he
  obtain ⟨start, hstart, below, above⟩ := cut
  refine ⟨start, hstart, ?_⟩
  rintro ⟨entries, pager⟩ ⟨more, rfl⟩
  unfold LogView.readFrom
  dsimp only
  congr 1
  conv_lhs => rw [← List.take_append_drop count entries]
  have dropped : (entries.take count).filter (fun e => decide (start ≤ e.version)) = [] := by
    rw [List.filter_eq_nil_iff]
    intro e he
    have := below e (by rw [List.take_append]; exact List.mem_append_left _ he)
    simpa using this
  have kept : (entries.drop count).filter (fun e => decide (start ≤ e.version)) =
      entries.drop count := by
    rw [List.filter_eq_self]
    intro e he
    have := above e (by rw [List.drop_append]; exact List.mem_append_left _ he)
    simpa using this
  rw [List.filter_append, dropped, kept, List.nil_append]

/-- A page taken from where the standby is moves it by that page, or is refused by a fold. -/
theorem Folded.foldPage {page : List MetadataEntry} {tail : MetadataEntry}
    (folded : Folded log count s) (next : log.take (count + page.length) = log.take count ++ page)
    (hle : count + page.length ≤ log.length) (htail : page.getLast? = some tail) :
    (∀ s', s.foldPage page tail.version = .ok s' → Folded log (count + page.length) s') ∧
      (Accepts log (count + page.length) → ∃ s', s.foldPage page tail.version = .ok s') := by
  obtain ⟨sound, unbounded⟩ := folded.sound
  have agrees := sound.page_agrees unbounded page
  have last : (log.take count ++ page).getLast? = some tail := by
    rw [List.getLast?_append, htail]
    rfl
  have foldPage_iff : ∀ s', s.foldPage page tail.version = .ok s' ↔
      page.foldlM Allocator.replay s.allocator = .ok s'.allocator ∧
        page.foldlM IndexState.advance s.index = .ok s'.index ∧ s'.last = some tail.version := by
    intro s'
    unfold Standby.foldPage
    simp only [bind_eq_ok, foldlM_accepts_mapError, accepts_mapError]
    constructor
    · rintro ⟨allocator, hallocator, index, hindex, h⟩
      cases h
      exact ⟨hallocator, (agrees _).mp hindex, rfl⟩
    · rintro ⟨hallocator, hindex, hlast⟩
      refine ⟨_, hallocator, _, (agrees _).mpr hindex, ?_⟩
      rw [← hlast]
      rfl
  constructor
  · intro s' h
    obtain ⟨hallocator, hindex, hlast⟩ := (foldPage_iff s').mp h
    refine ⟨hle, ?_, ?_, ?_⟩
    · rw [next, List.foldlM_append, folded.allocator, bind_ok, hallocator]
    · rw [next, List.foldlM_append, folded.index, bind_ok, hindex]
    · rw [next, last, hlast]
      rfl
  · rintro ⟨allocator, index, hallocator, hindex⟩
    rw [next, List.foldlM_append, folded.allocator, bind_ok] at hallocator
    rw [next, List.foldlM_append, folded.index, bind_ok] at hindex
    exact ⟨⟨allocator, index, some tail.version⟩, (foldPage_iff _).mpr ⟨hallocator, hindex, rfl⟩⟩

theorem page_extends {view : LogView} (isPrefix : view.entries <+: log) {length : Nat}
    (page : List MetadataEntry) (hpage : page = (view.entries.drop count).take length)
    (hcount : count ≤ view.entries.length) :
    log.take (count + page.length) = log.take count ++ page ∧
      count + page.length ≤ view.entries.length := by
  obtain ⟨more, rfl⟩ := isPrefix
  have bound : count + page.length ≤ view.entries.length := by
    rw [hpage, List.length_take, List.length_drop]
    omega
  refine ⟨?_, bound⟩
  rw [List.take_append_of_le_length bound, List.take_append_of_le_length hcount, List.take_add]
  congr 1
  rw [hpage, List.length_take, List.take_eq_take_iff]
  omega

/-- The next page of a view: none when the view ends here, else a step of both folds. -/
theorem Folded.nextPage (ordered : Ordered 0 log) {view : LogView}
    (isPrefix : view.entries <+: log) (here : Folded log count s) {start : Nat}
    (hstart : s.nextFrom = .ok start) :
    ((view.readFrom start).getLast? = none → view.entries.length ≤ count) ∧
    ∀ tail, (view.readFrom start).getLast? = some tail →
      count < count + (view.readFrom start).length ∧
      count + (view.readFrom start).length ≤ view.entries.length ∧
      (∀ s', s.foldPage (view.readFrom start) tail.version = .ok s' →
        Folded log (count + (view.readFrom start).length) s') ∧
      (Accepts log (count + (view.readFrom start).length) →
        ∃ s', s.foldPage (view.readFrom start) tail.version = .ok s') := by
  obtain ⟨start', hstart', hread⟩ := here.readFrom ordered
  obtain rfl : start' = start := Except.ok.inj (hstart'.symm.trans hstart)
  rw [hread view isPrefix]
  generalize hpage : (view.entries.drop count).take (view.pager.pageLength start') = page
  constructor
  · intro hnone
    have empty : page = [] := by simpa using hnone
    rw [empty, List.take_eq_nil_iff, List.drop_eq_nil_iff] at hpage
    rcases hpage with h | h
    · exact absurd h (Nat.pos_iff_ne_zero.mp (view.pager.positive start'))
    · exact h
  · intro tail htail
    have nonempty : 0 < page.length := by
      rw [List.length_pos_iff]
      rintro rfl
      simp at htail
    have inside : count ≤ view.entries.length := by
      by_contra past
      rw [List.drop_eq_nil_of_le (by omega), List.take_nil] at hpage
      rw [← hpage] at nonempty
      simp at nonempty
    obtain ⟨next, bound⟩ := page_extends isPrefix page hpage.symm inside
    exact ⟨by omega, bound, here.foldPage next (le_trans bound isPrefix.length_le) htail⟩

/-- Catching up folds everything a view holds, and is refused only where a fold refuses. -/
theorem Folded.catchUpRounds (ordered : Ordered 0 log) {view : LogView}
    (isPrefix : view.entries <+: log) {rounds folded : Nat}
    (here : Folded log count s) (enough : view.entries.length - count < rounds) :
    (∀ s' total, Standby.catchUpRounds view rounds s folded = .ok (s', total) →
      Folded log (max count view.entries.length) s') ∧
    (Accepts log (max count view.entries.length) →
      ∃ out, Standby.catchUpRounds view rounds s folded = .ok out) := by
  induction rounds generalizing count s folded with
  | zero => omega
  | succ rounds ih =>
    obtain ⟨start, hstart, -⟩ := here.readFrom ordered
    obtain ⟨ending, paging⟩ := here.nextPage ordered isPrefix hstart
    unfold Standby.catchUpRounds
    rw [hstart, bind_ok]
    dsimp only
    cases htail : (view.readFrom start).getLast? with
    | none =>
      rw [Nat.max_eq_left (ending htail)]
      constructor
      · intro s' total h
        cases h
        exact here
      · exact fun _ => ⟨_, rfl⟩
    | some tail =>
      obtain ⟨further, bound, forward, backward⟩ := paging tail htail
      have same : max (count + (view.readFrom start).length) view.entries.length =
          max count view.entries.length := by omega
      constructor
      · intro s' total h
        obtain ⟨mid, hmid, hrest⟩ := bind_eq_ok.mp h
        rw [← same]
        exact (ih (forward mid hmid) (by omega)).1 s' total hrest
      · intro accepted
        obtain ⟨mid, hmid⟩ := backward (accepted.mono (by omega))
        dsimp only
        rw [hmid, bind_ok]
        exact (ih (forward mid hmid) (by omega)).2 (by rwa [same])

theorem Folded.catchUp (ordered : Ordered 0 log) {view : LogView}
    (isPrefix : view.entries <+: log) (here : Folded log count s) :
    (∀ s' total, s.catchUp view = .ok (s', total) →
      Folded log (max count view.entries.length) s') ∧
    (Accepts log (max count view.entries.length) → ∃ out, s.catchUp view = .ok out) :=
  here.catchUpRounds ordered isPrefix (by omega)

/-- A cold replay's loop is a catch-up that was handed its first page. -/
theorem Folded.foldPagesRounds (ordered : Ordered 0 log) {view : LogView}
    (isPrefix : view.entries <+: log) {rounds : Nat} (here : Folded log count s)
    {start : Nat} (hstart : s.nextFrom = .ok start) (folded : Nat) :
    Oqueue.foldPagesRounds view rounds s (view.readFrom start) =
      (Standby.catchUpRounds view rounds s folded).map Prod.fst := by
  induction rounds generalizing count s start folded with
  | zero => rfl
  | succ rounds ih =>
    obtain ⟨-, paging⟩ := here.nextPage ordered isPrefix hstart
    unfold Oqueue.foldPagesRounds Standby.catchUpRounds
    rw [hstart, bind_ok]
    dsimp only
    cases htail : (view.readFrom start).getLast? with
    | none => rfl
    | some tail =>
      obtain ⟨-, -, forward, -⟩ := paging tail htail
      dsimp only
      cases hmid : s.foldPage (view.readFrom start) tail.version with
      | error e => rfl
      | ok mid =>
        obtain ⟨start', hstart', -⟩ := (forward mid hmid).readFrom ordered
        have lastFolded : mid.last = some tail.version := by
          unfold Standby.foldPage at hmid
          simp only [bind_eq_ok] at hmid
          obtain ⟨_, -, _, -, h⟩ := hmid
          cases h
          rfl
        have advances : (CommitVersion.advance tail.version 1).mapError
            (CoordinatorError.unreplayable tail.version) = .ok start' := by
          unfold nextFrom at hstart'
          rw [lastFolded] at hstart'
          exact hstart'
        rw [bind_ok, bind_ok, advances, bind_ok]
        exact ih (forward mid hmid) hstart' _

end

/-- Views of a log, each some first part of it, cut into pages of any lengths. -/
def ViewsOf (log : List MetadataEntry) (views : List LogView) : Prop :=
  ∀ view ∈ views, view.entries <+: log

theorem Folded.catchUps {log : List MetadataEntry} (ordered : Ordered 0 log)
    {views : List LogView} (prefixes : ViewsOf log views) {count : Nat} {s : Standby}
    (here : Folded log count s) :
    (∀ s', views.foldlM (fun self view => (self.catchUp view).map Prod.fst) s = .ok s' →
      ∃ count', Folded log count' s') ∧
    (Accepts log log.length →
      ∃ s', views.foldlM (fun self view => (self.catchUp view).map Prod.fst) s = .ok s') := by
  induction views generalizing count s with
  | nil =>
    constructor
    · intro s' h
      cases h
      exact ⟨count, here⟩
    · exact fun _ => ⟨s, rfl⟩
  | cons view rest ih =>
    have isPrefix := prefixes view (List.mem_cons_self ..)
    have others : ViewsOf log rest := fun v hv => prefixes v (List.mem_cons_of_mem _ hv)
    obtain ⟨forward, backward⟩ := here.catchUp ordered isPrefix
    simp only [List.foldlM_cons, bind_eq_ok]
    constructor
    · rintro s' ⟨mid, hmid, hrest⟩
      cases hcatch : s.catchUp view with
      | error e => simp [hcatch, Except.map] at hmid
      | ok out =>
        rw [hcatch] at hmid
        cases hmid
        exact (ih others (forward out.1 out.2 hcatch)).1 s' hrest
    · intro accepted
      have reach : max count view.entries.length ≤ log.length :=
        Nat.max_le.mpr ⟨here.le, isPrefix.length_le⟩
      obtain ⟨out, hout⟩ := backward (accepted.mono reach)
      obtain ⟨s', hs'⟩ := (ih others (forward out.1 out.2 hout)).2 accepted
      exact ⟨s', out.1, by rw [hout]; rfl, hs'⟩

end Standby

/-- A standby caught up over any views and then promoted, and a cold replay of
the whole log, are accepted together and end with the same line. -/
theorem lead_agrees_cold {log : List MetadataEntry} (ordered : Ordered 0 log)
    {views : List LogView} (prefixes : Standby.ViewsOf log views) {whole cold : LogView}
    (hwhole : whole.entries = log) (hcold : cold.entries = log) :
    Agree (Standby.lead views whole) (coldReplay cold .new) := by
  have start : Standby.Folded log 0 (Standby.new .new) := Standby.Folded.initial log
  have wholePrefix : whole.entries <+: log := hwhole ▸ List.prefix_refl _
  have coldPrefix : cold.entries <+: log := hcold ▸ List.prefix_refl _
  obtain ⟨through, onward⟩ := start.catchUps ordered prefixes
  have coldEq : coldReplay cold .new = ((Standby.new .new).catchUp cold).map Prod.fst :=
    start.foldPagesRounds ordered coldPrefix rfl 0
  obtain ⟨coldForward, coldBackward⟩ := start.catchUp ordered coldPrefix
  rw [hcold, Nat.zero_max] at coldForward coldBackward
  have finish : ∀ {count s}, Standby.Folded log count s →
      (∀ s', s.promote whole = .ok s' → Standby.Folded log log.length s') ∧
        (Accepts log log.length → ∃ s', s.promote whole = .ok s') := by
    intro count s here
    obtain ⟨forward, backward⟩ := here.catchUp ordered wholePrefix
    rw [hwhole, Nat.max_eq_right here.le] at forward backward
    unfold Standby.promote
    constructor
    · intro s' h
      obtain ⟨out, hout, hpure⟩ := bind_eq_ok.mp h
      cases hpure
      exact forward out.1 out.2 hout
    · intro accepted
      obtain ⟨out, hout⟩ := backward accepted
      exact ⟨out.1, bind_eq_ok.mpr ⟨out, hout, rfl⟩⟩
  have accepts : ∀ {s}, Standby.Folded log log.length s → Accepts log log.length :=
    fun h => ⟨_, _, h.allocator, h.index⟩
  intro s
  constructor
  · intro h
    obtain ⟨caught, hcaught, hpromote⟩ := bind_eq_ok.mp h
    obtain ⟨count, here⟩ := through caught hcaught
    have ended := (finish here).1 s hpromote
    obtain ⟨out, hout⟩ := coldBackward (accepts ended)
    have same := (coldForward out.1 out.2 hout).unique ended
    rw [coldEq, hout, ← same]
    rfl
  · intro h
    rw [coldEq] at h
    cases hcatch : (Standby.new .new).catchUp cold with
    | error e => simp [hcatch, Except.map] at h
    | ok out =>
      rw [hcatch] at h
      cases h
      have ended := coldForward out.1 out.2 hcatch
      obtain ⟨caught, hcaught⟩ := onward (accepts ended)
      obtain ⟨count, here⟩ := through caught hcaught
      obtain ⟨s', hs'⟩ := (finish here).2 (accepts ended)
      have same := ((finish here).1 s' hs').unique ended
      exact bind_eq_ok.mpr ⟨caught, hcaught, by rw [hs', same]⟩

end Oqueue
