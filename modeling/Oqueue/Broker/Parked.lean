import Oqueue.Broker.FetchBudget
import Oqueue.Broker.Park
import Oqueue.Index.Entry
import Oqueue.Index.Extent
import Oqueue.Library.Steps

/-!
# A parked fetch loses no commit

Every commit up to the version a handler waits past was folded before its last
look at the watermarks it compares, and so shows in what it has read. A later
one moves a watermark, and its announcement ends the wait.
-/

namespace Oqueue

open IndexState

theorem IndexState.apply_entry_endOffset_le {s t : IndexState} {entry : MetadataEntry}
    (h : s.apply [entry] = .ok t) (key : PartitionKey) : s.endOffset key ≤ t.endOffset key := by
  obtain ⟨σ, hσ, -, rfl⟩ := apply_eq_ok.mp h
  rw [List.foldlM_cons, Checked.bind_eq_ok] at hσ
  obtain ⟨_, hstep, hnil⟩ := hσ
  cases hnil
  exact advance_endOffset_le (advance_eq_ok.mpr ⟨_, hstep, rfl⟩) key

namespace Broker.Park

/-- Reached by, where nothing has been reached yet at first. -/
def AtMost (version : Nat) (reached : Option Nat) : Prop :=
  ∃ upto, reached = some upto ∧ version ≤ upto

/-- An entry of a pass whose answer stops short of this commit. -/
def Misses (setting : Setting) (outcomes : List PartitionOutcome) (commit : Commit) : Prop :=
  ∃ ask outcome, (ask, outcome) ∈ setting.request.asks.zip outcomes ∧
    setting.keyOf ask = some commit.key ∧ outcome.highWatermark < commit.stop

/-- What one step of the coordinator, or the passing of time, leaves of what was. -/
structure Later (world next : World) : Prop where
  ends : ∀ key, world.index.endOffset key ≤ next.index.endOffset key
  commits : ∀ commit ∈ next.commits, commit ∈ world.commits ∨ Above world.announced commit.version
  announced : ∀ version, AtMost version world.announced → AtMost version next.announced
  now : world.now ≤ next.now
  deadline : next.deadline = world.deadline
  stopped : world.stopped = true → next.stopped = true

/-- Every commit to this partition up to a version ends here or before. -/
def Covers (world : World) (applied : Option Nat) (key : PartitionKey) (stop : Nat) : Prop :=
  ∀ commit ∈ world.commits, commit.key = key → AtMost commit.version applied → commit.stop ≤ stop

/-- No watermark sampled for this partition before the pass lies past here. -/
def Bounds (setting : Setting) (before : List Nat) (key : PartitionKey) (stop : Nat) : Prop :=
  ∀ sampled, (key, sampled) ∈ (setting.request.asks.filterMap setting.keyOf).zip before →
    sampled ≤ stop

/-- Watermarks sampled for these entries, each with this property. -/
def Sampled (setting : Setting) (asks : List Ask) (ends : List Nat)
    (P : PartitionKey → Nat → Prop) : Prop :=
  List.Forall₂ P (asks.filterMap setting.keyOf) ends

/-- The answers of a pass that brought no error, each with this property of its watermark. -/
def Answers (setting : Setting) (asks : List Ask) (outcomes : List PartitionOutcome)
    (P : PartitionKey → Nat → Prop) : Prop :=
  List.Forall₂ (fun ask outcome => outcome.errorCode = ErrorCode.none → ∃ key stop : _,
    setting.keyOf ask = some key ∧ outcome.highWatermark = ((stop : Nat) : Int) ∧ P key stop)
    asks outcomes

/-- What a pass that has got this far has shown of the commits up to a version. -/
structure Held.Kept (setting : Setting) (world : World) (held : Held) (done : List Ask)
    (shown : Option Nat) : Prop where
  reads : held.reads < maxReadsPerRequest
  applied : ∀ version, AtMost version held.applied → AtMost version world.announced
  before : Sampled setting setting.request.asks held.before fun key sampled =>
    sampled ≤ world.index.endOffset key
  outcomes : Answers setting done held.outcomes fun key stop =>
    Covers world shown key stop ∧ Bounds setting held.before key stop

/-- The index a partition was resolved in was as far as the samples before it. -/
def Reading.Kept (setting : Setting) (world : World) (held : Held) : Reading → Prop
  | .fresh => True
  | .resolved resolving | .paged resolving _ => ∀ key,
    Covers world held.applied key (resolving.endOffset key) ∧
      Bounds setting held.before key (resolving.endOffset key)

/-- What the reason a handler answered for says. -/
def Why.Holds (setting : Setting) (world : World) (outcomes : List PartitionOutcome)
    (reads : Nat) : Why → Prop
  | .nothingAsked => outcomes = []
  | .notCaughtUp => ∀ outcome ∈ outcomes, outcome.errorCode ≠ ErrorCode.none
  | .worthAnswering => Broker.worthAnswering outcomes setting.target = true
  | .maxReads => reads = maxReadsPerRequest
  | .deadline => world.deadline ≤ world.now
  | .stopped => world.stopped = true

def Handler.Kept (setting : Setting) (world : World) : Handler → Prop
  | .arriving | .catchingUp => True
  | .refusing _ outcomes => ∀ outcome ∈ outcomes, outcome.errorCode ≠ ErrorCode.none
  | .sampling reads _ left ends => reads < maxReadsPerRequest ∧ ∃ done,
    setting.request.asks = done ++ left ∧ Sampled setting done ends fun key sampled =>
      sampled ≤ world.index.endOffset key
  | .reading held left _ partition => partition.Kept setting world held ∧ ∃ done,
    setting.request.asks = done ++ left ∧ held.Kept setting world done held.applied
  | .waiting held | .woken held => held.Kept setting world setting.request.asks held.applied ∧
    ∀ outcome ∈ held.outcomes, outcome.errorCode = ErrorCode.none
  | .checking held left ends => held.Kept setting world setting.request.asks none ∧
    (∀ outcome ∈ held.outcomes, outcome.errorCode = ErrorCode.none) ∧ ∃ done,
      setting.request.asks = done ++ left ∧ Sampled setting done ends fun key sampled =>
        Covers world held.applied key sampled
  | .returned outcomes reads why =>
    reads ≤ maxReadsPerRequest ∧ why.Holds setting world outcomes reads

/-- What is announced was folded, what was folded shows in the index, and the handler has seen
what it goes by. -/
structure World.Kept (setting : Setting) (world : World) : Prop where
  announced : ∀ version, AtMost version world.announced → AtMost version world.index.appliedUpto
  folded : ∀ commit ∈ world.commits, AtMost commit.version world.index.appliedUpto ∧
    commit.stop ≤ world.index.endOffset commit.key
  handler : world.handler.Kept setting world

variable {setting : Setting} {world next : World}

theorem step_fold {entry : MetadataEntry} (stepped : world.step setting (.fold entry) = some next) :
    ∃ after, world.index.apply [entry] = .ok after ∧ next = { world with
      index := after
      commits := world.commits ++ commitsOf entry after } := by
  dsimp only [World.step] at stepped
  split at stepped
  · cases stepped
    exact ⟨_, ‹_›, rfl⟩
  · cases stepped

theorem step_announce (stepped : world.step setting .announce = some next) :
    next = { world with announced := world.index.appliedUpto } := by
  dsimp only [World.step] at stepped
  split at stepped
  · cases stepped
  · exact (Option.some.inj stepped).symm

theorem step_caughtUp {held : Bool} (stepped : world.step setting (.caughtUp held) = some next) :
    world.handler = .catchingUp ∧ next = world.goTo
      (if held then .sampling 0 {} setting.request.asks []
        else .refusing setting.request.asks []) := by
  dsimp only [World.step] at stepped
  split at stepped
  · exact ⟨‹_›, (Option.some.inj stepped).symm⟩
  · cases stepped

theorem step_wake (stepped : world.step setting .wake = some next) :
    ∃ held, world.handler = .waiting held ∧ next = world.goTo (.woken held) := by
  dsimp only [World.step] at stepped
  split at stepped
  · split at stepped
    · exact ⟨_, ‹_›, (Option.some.inj stepped).symm⟩
    · cases stepped
  · cases stepped

theorem step_expire (stepped : world.step setting .expire = some next) :
    ∃ held, world.handler = .waiting held ∧ world.deadline ≤ world.now ∧
      next = world.goTo (.returned held.outcomes held.reads .deadline) := by
  dsimp only [World.step] at stepped
  split at stepped
  · split at stepped
    · exact ⟨_, ‹_›, ‹_›, (Option.some.inj stepped).symm⟩
    · cases stepped
  · cases stepped

theorem step_close (stepped : world.step setting .close = some next) :
    ∃ held, world.handler = .waiting held ∧ world.stopped = true ∧
      next = world.goTo (.returned held.outcomes held.reads .stopped) := by
  dsimp only [World.step] at stepped
  split at stepped
  · split at stepped
    · rename_i held phase unheard
      exact ⟨held, phase, (Bool.and_eq_true_iff.mp unheard).1, (Option.some.inj stepped).symm⟩
    · cases stepped
  · cases stepped

theorem Covers.later (later : Later world next) {applied : Option Nat}
    (reached : ∀ version, AtMost version applied → AtMost version world.announced)
    {key : PartitionKey} {stop : Nat} (covers : Covers world applied key stop) :
    Covers next applied key stop := by
  intro commit member same atMost
  rcases later.commits commit member with old | above
  · exact covers commit old same atMost
  · obtain ⟨upto, announced, le⟩ := reached _ atMost
    exact absurd le (Nat.not_le.mpr (above upto announced))

theorem Sampled.mono {asks : List Ask} {ends : List Nat} {P Q : PartitionKey → Nat → Prop}
    (sampled : Sampled setting asks ends P) (weaker : ∀ key stop, P key stop → Q key stop) :
    Sampled setting asks ends Q :=
  sampled.imp fun key stop => weaker key stop

theorem Answers.mono {asks : List Ask} {outcomes : List PartitionOutcome}
    {P Q : PartitionKey → Nat → Prop} (answers : Answers setting asks outcomes P)
    (weaker : ∀ key ∈ asks.filterMap setting.keyOf, ∀ stop, P key stop → Q key stop) :
    Answers setting asks outcomes Q := by
  obtain ⟨long, pairs⟩ := List.forall₂_iff_zip.mp answers
  refine List.forall₂_iff_zip.mpr ⟨long, fun member fine => ?_⟩
  obtain ⟨key, stop, named, high, shown⟩ := pairs member fine
  have asked := List.mem_filterMap.mpr ⟨_, (List.of_mem_zip member).1, named⟩
  exact ⟨key, stop, named, high, weaker key asked stop shown⟩

theorem Held.Kept.later (later : Later world next) {held : Held} {done : List Ask}
    {shown : Option Nat}
    (reached : ∀ version, AtMost version shown → AtMost version world.announced)
    (kept : held.Kept setting world done shown) : held.Kept setting next done shown where
  reads := kept.reads
  applied := fun version atMost => later.announced version (kept.applied version atMost)
  before := kept.before.mono fun key _ le => le.trans (later.ends key)
  outcomes := kept.outcomes.mono fun _ _ _ shows => ⟨shows.1.later later reached, shows.2⟩

theorem not_atMost_none {version : Nat} : ¬ AtMost version none := fun ⟨_, h, _⟩ => nomatch h

theorem Handler.Kept.later (later : Later world next) {handler : Handler}
    (kept : handler.Kept setting world) : handler.Kept setting next := by
  cases handler with
  | arriving => trivial
  | catchingUp => trivial
  | refusing left outcomes => exact kept
  | sampling reads objects left ends =>
    obtain ⟨few, done, split, sampled⟩ := kept
    exact ⟨few, done, split, sampled.mono fun key _ le => le.trans (later.ends key)⟩
  | reading held left budget partition =>
    obtain ⟨reading, done, split, kept⟩ := kept
    refine ⟨?_, done, split, kept.later later kept.applied⟩
    cases partition with
    | fresh => trivial
    | resolved resolving =>
      exact fun key => ⟨(reading key).1.later later kept.applied, (reading key).2⟩
    | paged resolving manifest =>
      exact fun key => ⟨(reading key).1.later later kept.applied, (reading key).2⟩
  | waiting held => exact ⟨kept.1.later later kept.1.applied, kept.2⟩
  | woken held => exact ⟨kept.1.later later kept.1.applied, kept.2⟩
  | checking held left ends =>
    obtain ⟨kept, fine, done, split, sampled⟩ := kept
    exact ⟨kept.later later fun _ none => absurd none not_atMost_none, fine, done, split,
      sampled.mono fun _ _ covers => covers.later later kept.applied⟩
  | returned outcomes reads why =>
    refine ⟨kept.1, ?_⟩
    have holds := kept.2
    cases why with
    | nothingAsked => exact holds
    | notCaughtUp => exact holds
    | worthAnswering => exact holds
    | maxReads => exact holds
    | deadline =>
      change next.deadline ≤ next.now
      rw [later.deadline]
      exact (show world.deadline ≤ world.now from holds).trans later.now
    | stopped => exact later.stopped holds

theorem World.Kept.later (kept : world.Kept setting) (later : Later world next)
    (announced : ∀ version, AtMost version next.announced → AtMost version next.index.appliedUpto)
    (folded : ∀ commit ∈ next.commits, AtMost commit.version next.index.appliedUpto ∧
      commit.stop ≤ next.index.endOffset commit.key)
    (same : next.handler = world.handler) : next.Kept setting where
  announced := announced
  folded := folded
  handler := same ▸ kept.handler.later later

theorem later_fold (kept : world.Kept setting) {entry : MetadataEntry}
    (stepped : world.step setting (.fold entry) = some next) :
    Later world next ∧ next.Kept setting ∧ Above world.announced entry.version := by
  obtain ⟨after, folds, rfl⟩ := step_fold stepped
  obtain ⟨above, reached⟩ := apply_entry_version folds
  have ends := apply_entry_endOffset_le folds
  have announced : Above world.announced entry.version := by
    intro version announced
    obtain ⟨upto, same, le⟩ := kept.announced version ⟨version, announced, Nat.le_refl _⟩
    exact le.trans_lt (above upto same)
  have later : Later world { world with
      index := after
      commits := world.commits ++ commitsOf entry after } := by
    refine ⟨ends, ?_, fun _ h => h, Nat.le_refl _, rfl, id⟩
    intro commit member
    rcases List.mem_append.mp member with old | new
    · exact .inl old
    · obtain ⟨span, -, rfl⟩ := List.mem_map.mp new
      exact .inr announced
  refine ⟨later, kept.later later ?_ ?_ rfl, announced⟩
  · intro version atMost
    obtain ⟨upto, same, le⟩ := kept.announced version atMost
    exact ⟨entry.version, reached, le.trans (above upto same).le⟩
  · intro commit member
    rcases List.mem_append.mp member with old | new
    · obtain ⟨⟨upto, same, le⟩, stop⟩ := kept.folded commit old
      exact ⟨⟨entry.version, reached, le.trans (above upto same).le⟩, stop.trans (ends _)⟩
    · obtain ⟨span, -, rfl⟩ := List.mem_map.mp new
      exact ⟨⟨entry.version, reached, Nat.le_refl _⟩, Nat.le_refl _⟩

theorem World.Kept.announce (kept : world.Kept setting)
    (stepped : world.step setting .announce = some next) : next.Kept setting := by
  cases step_announce stepped
  have later : Later world { world with announced := world.index.appliedUpto } :=
    ⟨fun _ => Nat.le_refl _, fun _ => .inl, kept.announced, Nat.le_refl _, rfl, id⟩
  exact kept.later later (fun _ h => h) kept.folded rfl

theorem World.Kept.stop (kept : world.Kept setting) :
    ({ world with stopped := true } : World).Kept setting := by
  have later : Later world { world with stopped := true } :=
    ⟨fun _ => Nat.le_refl _, fun _ => .inl, fun _ h => h, Nat.le_refl _, rfl, fun _ => rfl⟩
  exact kept.later later kept.announced kept.folded rfl

theorem World.Kept.tick (kept : world.Kept setting) :
    ({ world with now := world.now + 1 } : World).Kept setting := by
  have later : Later world { world with now := world.now + 1 } :=
    ⟨fun _ => Nat.le_refl _, fun _ => .inl, fun _ h => h, Nat.le_succ _, rfl, id⟩
  exact kept.later later kept.announced kept.folded rfl

theorem World.Kept.goTo (kept : world.Kept setting) {handler : Handler}
    (seen : handler.Kept setting world) : (world.goTo handler).Kept setting where
  announced := kept.announced
  folded := kept.folded
  handler := by
    have later : Later world (world.goTo handler) :=
      ⟨fun _ => Nat.le_refl _, fun _ => .inl, fun _ h => h, Nat.le_refl _, rfl, id⟩
    exact Handler.Kept.later later seen

theorem Sampled.append {done : List Ask} {ends : List Nat} {P : PartitionKey → Nat → Prop}
    (sampled : Sampled setting done ends P) {index : IndexState} {ask : Ask}
    (holds : ∀ key, setting.keyOf ask = some key → P key (index.endOffset key)) :
    Sampled setting (done ++ [ask]) (ends ++ setting.sample index ask) P := by
  unfold Sampled Setting.sample
  rw [List.filterMap_append]
  refine List.rel_append sampled ?_
  cases named : setting.keyOf ask with
  | none =>
    rw [List.filterMap_cons_none named]
    exact .nil
  | some key =>
    rw [List.filterMap_cons_some named]
    exact .cons (holds key named) .nil

theorem Sampled.exists_of_mem {asks : List Ask} {ends : List Nat} {P : PartitionKey → Nat → Prop}
    (sampled : Sampled setting asks ends P) {key : PartitionKey}
    (asked : key ∈ asks.filterMap setting.keyOf) :
    ∃ stop, (key, stop) ∈ (asks.filterMap setting.keyOf).zip ends ∧ P key stop := by
  unfold Sampled at sampled
  generalize asks.filterMap setting.keyOf = keys at sampled asked ⊢
  induction sampled with
  | nil => cases asked
  | cons here _ ih =>
    rw [List.zip_cons_cons]
    cases asked with
    | head => exact ⟨_, .head _, here⟩
    | tail _ asked =>
      obtain ⟨stop, member, holds⟩ := ih asked
      exact ⟨stop, .tail _ member, holds⟩

theorem Answers.append {done : List Ask} {outcomes : List PartitionOutcome}
    {P : PartitionKey → Nat → Prop} (answers : Answers setting done outcomes P) {ask : Ask}
    {outcome : PartitionOutcome} (shows : outcome.errorCode = ErrorCode.none → ∃ key stop : _,
      setting.keyOf ask = some key ∧ outcome.highWatermark = ((stop : Nat) : Int) ∧ P key stop) :
    Answers setting (done ++ [ask]) (outcomes ++ [outcome]) P :=
  List.rel_append answers (.cons shows .nil)

theorem World.Kept.covers (kept : world.Kept setting) (applied : Option Nat) (key : PartitionKey) :
    Covers world applied key (world.index.endOffset key) := by
  rintro commit member rfl -
  exact (kept.folded commit member).2

theorem bounds_of_sampled {before : List Nat} (sampled : Sampled setting setting.request.asks before
    fun key sampled => sampled ≤ world.index.endOffset key) (key : PartitionKey) :
    Bounds setting before key (world.index.endOffset key) := by
  intro end_ member
  obtain ⟨-, pairs⟩ := List.forall₂_iff_zip.mp sampled
  exact pairs member

theorem unknown_ne_none (setting : Setting) : setting.unknown ≠ ErrorCode.none := by
  unfold Setting.unknown
  split <;> decide

/-- A partition that was answered without an error was answered up to the end it had when it was
resolved. -/
theorem onePartition_spec {node : Node} {moments : Moments} {ask : Ask} {allowance : Allowance}
    {objects : FetchedObjects}
    (fine : (node.onePartition moments (setting.name ask) setting.unknown ask.asked allowance
      objects).1.errorCode = ErrorCode.none) :
    ∃ key, setting.keyOf ask = some key ∧
      (node.onePartition moments (setting.name ask) setting.unknown ask.asked allowance
        objects).1.highWatermark = (moments.resolving.endOffset key : Int) := by
  unfold Node.onePartition at fine ⊢
  cases resolved : node.resolve moments.resolving (setting.name ask) setting.unknown
      ask.asked.index ask.asked.fetchOffset with
  | error refusal =>
    obtain ⟨code, high⟩ := refusal
    rw [resolved] at fine
    rcases Node.resolve_error resolved with rfl | rfl | rfl
    · exact absurd fine (unknown_ne_none setting)
    · cases fine
    · cases fine
  | ok found =>
    obtain ⟨topic, partition, high, start⟩ := found
    rw [resolved] at fine
    obtain ⟨name, named, -, made, indexed, rfl, -, -⟩ := Node.resolve_ok resolved
    refine ⟨(topic, partition), ?_, ?_⟩
    · unfold Setting.keyOf
      rw [named]
      dsimp only
      rw [made, indexed]
    · dsimp only
      split <;> rfl

theorem worthAnswering_eq_false {outcomes : List PartitionOutcome} {minBytes : Nat}
    (short : ¬ Broker.worthAnswering outcomes minBytes = true) :
    ∀ outcome ∈ outcomes, outcome.errorCode = ErrorCode.none := by
  intro outcome member
  by_contra refused
  apply short
  unfold Broker.worthAnswering
  rw [Bool.or_eq_true]
  exact .inl (List.any_eq_true.mpr ⟨outcome, member, bne_iff_ne.mpr refused⟩)

theorem Held.Kept.decided {held : Held}
    (pass : held.Kept setting world setting.request.asks held.applied) :
    (world.decided setting { held with reads := held.reads + 1 }).Kept setting world := by
  unfold World.decided
  dsimp only
  split
  · rename_i worth
    exact ⟨pass.reads, worth⟩
  · rename_i short
    split
    · rename_i most
      exact ⟨pass.reads, Nat.le_antisymm pass.reads most⟩
    · rename_i few
      split
      · rename_i past
        exact ⟨pass.reads, past⟩
      · exact ⟨⟨Nat.not_le.mp few, pass.applied, pass.before, pass.outcomes⟩,
          worthAnswering_eq_false short⟩

theorem Held.Kept.looking {held : Held}
    (pass : held.Kept setting world setting.request.asks held.applied) :
    ({ held with applied := world.announced }).Kept setting world setting.request.asks none where
  reads := pass.reads
  applied := fun _ h => h
  before := pass.before
  outcomes := pass.outcomes.mono fun _ _ _ shows =>
    ⟨fun _ _ _ none => absurd none not_atMost_none, shows.2⟩

theorem Held.Kept.unmoved {held : Held} {ends : List Nat}
    (pass : held.Kept setting world setting.request.asks none) (same : ends = held.before)
    (sampled : Sampled setting setting.request.asks ends fun key sampled =>
      Covers world held.applied key sampled) :
    held.Kept setting world setting.request.asks held.applied where
  reads := pass.reads
  applied := pass.applied
  before := pass.before
  outcomes := pass.outcomes.mono fun key asked stop shows => by
    obtain ⟨sampled, member, covers⟩ := sampled.exists_of_mem asked
    refine ⟨fun commit folded ends reached => ?_, shows.2⟩
    have inside : sampled ≤ stop := shows.2 sampled (same ▸ member)
    exact (covers commit folded ends reached).trans inside

theorem World.Kept.handled (kept : world.Kept setting)
    {store : ObjectKey → ByteRange → Except Error (List UInt8)}
    (stepped : world.handled setting store = some next) : next.Kept setting := by
  have seen := kept.handler
  unfold World.handled at stepped
  cases phase : world.handler with
  | arriving =>
    rw [phase] at stepped
    dsimp only at stepped
    split at stepped
    · cases stepped
      exact kept.goTo ⟨Nat.zero_le _, rfl⟩
    · cases stepped
      exact ⟨kept.announced, kept.folded, trivial⟩
  | catchingUp =>
    rw [phase] at stepped
    cases stepped
  | refusing left outcomes =>
    rw [phase] at stepped seen
    cases left with
    | nil =>
      cases stepped
      exact kept.goTo ⟨Nat.zero_le _, seen⟩
    | cons ask left =>
      cases stepped
      refine kept.goTo fun outcome member => ?_
      rcases List.mem_append.mp member with old | new
      · exact seen outcome old
      · cases List.mem_singleton.mp new
        exact (by decide : ErrorCode.offsetNotAvailable ≠ ErrorCode.none)
  | sampling reads objects left ends =>
    rw [phase] at stepped seen
    obtain ⟨few, done, split, sampled⟩ := seen
    cases left with
    | nil =>
      cases stepped
      rw [List.append_nil] at split
      cases split
      exact kept.goTo ⟨trivial, [], rfl, few, fun _ h => h, sampled, .nil⟩
    | cons ask left =>
      cases stepped
      refine kept.goTo ⟨few, done ++ [ask], ?_, sampled.append fun _ _ => Nat.le_refl _⟩
      rw [split, List.append_assoc, List.singleton_append]
  | reading held left budget partition =>
    rw [phase] at stepped seen
    obtain ⟨reading, done, split, pass⟩ := seen
    cases left with
    | nil =>
      cases stepped
      rw [List.append_nil] at split
      cases split
      exact kept.goTo pass.decided
    | cons ask left =>
      have further : setting.request.asks = (done ++ [ask]) ++ left := by
        rw [split, List.append_assoc, List.singleton_append]
      dsimp only at stepped
      split at stepped
      · cases partition with
        | fresh =>
          cases stepped
          exact kept.goTo ⟨fun key => ⟨kept.covers _ key, bounds_of_sampled pass.before key⟩, done,
            split, pass⟩
        | resolved resolving =>
          cases stepped
          exact kept.goTo ⟨reading, done, split, pass⟩
        | paged resolving manifest =>
          cases stepped
          refine kept.goTo ⟨trivial, done ++ [ask], further, pass.reads, pass.applied, pass.before,
            pass.outcomes.append fun fine => ?_⟩
          obtain ⟨key, named, high⟩ := onePartition_spec fine
          exact ⟨key, _, named, high, reading key⟩
      · cases stepped
        refine kept.goTo ⟨trivial, done ++ [ask], further, pass.reads, pass.applied, pass.before,
          pass.outcomes.append fun fine => ?_⟩
        exact absurd fine (by decide : ErrorCode.topicAuthorizationFailed ≠ ErrorCode.none)
  | waiting held =>
    rw [phase] at stepped
    cases stepped
  | woken held =>
    rw [phase] at stepped seen
    obtain ⟨pass, fine⟩ := seen
    cases stepped
    exact kept.goTo ⟨pass.looking, fine, [], rfl, .nil⟩
  | checking held left ends =>
    rw [phase] at stepped seen
    obtain ⟨pass, fine, done, split, sampled⟩ := seen
    cases left with
    | nil =>
      cases stepped
      rw [List.append_nil] at split
      cases split
      split
      · exact kept.goTo ⟨pass.unmoved ‹_› sampled, fine⟩
      · exact kept.goTo ⟨pass.reads, [], rfl, .nil⟩
    | cons ask left =>
      cases stepped
      refine kept.goTo ⟨pass, fine, done ++ [ask], ?_, sampled.append fun key _ => kept.covers _ key⟩
      rw [split, List.append_assoc, List.singleton_append]
  | returned outcomes reads why =>
    rw [phase] at stepped
    cases stepped

theorem World.Kept.step (kept : world.Kept setting) {action : Action}
    (stepped : world.step setting action = some next) : next.Kept setting := by
  have seen := kept.handler
  cases action with
  | fold entry => exact (later_fold kept stepped).2.1
  | announce => exact kept.announce stepped
  | stop =>
    cases stepped
    exact kept.stop
  | tick =>
    cases stepped
    exact kept.tick
  | caughtUp held =>
    obtain ⟨-, rfl⟩ := step_caughtUp stepped
    apply kept.goTo
    split
    · exact ⟨by decide, [], rfl, .nil⟩
    · intro outcome member
      cases member
  | handle store => exact kept.handled stepped
  | wake =>
    obtain ⟨held, phase, rfl⟩ := step_wake stepped
    rw [phase] at seen
    exact kept.goTo seen
  | expire =>
    obtain ⟨held, phase, past, rfl⟩ := step_expire stepped
    rw [phase] at seen
    exact kept.goTo ⟨seen.1.reads.le, past⟩
  | close =>
    obtain ⟨held, phase, stopped, rfl⟩ := step_close stepped
    rw [phase] at seen
    exact kept.goTo ⟨seen.1.reads.le, stopped⟩

theorem World.Kept.start : World.Kept setting {} where
  announced := fun _ none => absurd none not_atMost_none
  folded := fun _ member => nomatch member
  handler := trivial

theorem World.Kept.of_run {actions : List Action}
    (ran : Steps.run (World.step setting) {} actions = some world) : world.Kept setting :=
  Steps.run_invariant (World.Kept setting) (fun _ _ _ kept stepped => kept.step stepped) .start ran

end Broker.Park

end Oqueue
