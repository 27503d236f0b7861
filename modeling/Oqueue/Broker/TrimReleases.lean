import Oqueue.Broker.RetentionIndex
import Oqueue.Broker.RetentionSetting
import Oqueue.Index.Below
import Oqueue.Index.Lookup

/-!
# What a trim takes the last name off is released

A round looks up what a trim will drop before it asks for the trim, in its own copy of the
index; the index that folds the trim has by then what the log took in between. Nothing that
comes in between can enter below the trim but a swap.
-/

namespace Oqueue

open Checked Tiling PartitionIndex Follower

/-- No reference of a partition ends at or below its log start. -/
def IndexState.Unended (s : IndexState) (key : PartitionKey) : Prop :=
  ∀ r ∈ s.refsOf key, s.logStart key < r.stop

namespace IndexedBatch

abbrev stop (self : IndexedBatch) : Nat := self.reference.stop

/-- Whether a trim to `start` drops a batch. -/
def endsBy (start : Nat) (self : IndexedBatch) : Bool := decide (self.stop ≤ start)

def object (self : IndexedBatch) : ObjectKey := self.reference.object

end IndexedBatch

namespace Retention

/-- The loop of `below`: page after page, as long as it goes on. -/
inductive Walk (index : IndexState) (key : PartitionKey) (start : Nat) : Nat → List ObjectKey → Prop
  | reached {cursor : Nat} (done : start ≤ cursor) : Walk index key start cursor []
  | failed {cursor : Nat} {error : Error} (more : cursor < start)
      (read : index.findBatches key cursor u64Max = .error error) : Walk index key start cursor []
  | ended {cursor : Nat} (more : cursor < start)
      (read : index.findBatches key cursor u64Max = .ok []) : Walk index key start cursor []
  | stopped {cursor : Nat} {page : List IndexedBatch} {dropped : List ObjectKey}
      (more : cursor < start) (read : index.findBatches key cursor u64Max = .ok page)
      (some : page ≠ []) (stops : belowPage start page cursor = (dropped, none)) :
      Walk index key start cursor dropped
  | next {cursor next : Nat} {page : List IndexedBatch} {dropped later : List ObjectKey}
      (more : cursor < start) (read : index.findBatches key cursor u64Max = .ok page)
      (some : page ≠ []) (goes : belowPage start page cursor = (dropped, .some next))
      (rest : Walk index key start next later) : Walk index key start cursor (dropped ++ later)

/-- One page of the walk adds what ends by the trim's start; it is the last page if
something on it ends later. -/
theorem belowPage_eq {start a b : Nat} {page : List IndexedBatch}
    (tiles : Tiles (ObjectRef.baseOffset ∘ IndexedBatch.reference) IndexedBatch.stop page a b)
    (fits : ∀ batch ∈ page, batch.stop ≤ i64Max) (cursor : Nat) :
    belowPage start page cursor =
      ((page.filter (IndexedBatch.endsBy start)).map IndexedBatch.object,
        if b ≤ start ∨ page = [] then some (Paged.resume IndexedBatch.stop cursor page) else none) := by
  induction page generalizing a cursor with
  | nil =>
    rw [if_pos (.inr rfl)]
    rfl
  | cons batch rest ih =>
    obtain ⟨-, -, later⟩ := tiles
    have ends : batch.reference.endOffset = .ok batch.stop :=
      ObjectRef.endOffset_of_le (fits batch (List.mem_cons_self ..))
    unfold belowPage
    rw [ends]
    dsimp only
    by_cases past : start < batch.stop
    · have none_ends : (batch :: rest).filter (IndexedBatch.endsBy start) = [] := by
        apply List.filter_eq_nil_iff.mpr
        intro other among
        unfold IndexedBatch.endsBy
        rw [decide_eq_true_eq]
        rcases List.mem_cons.mp among with rfl | among
        · exact Nat.not_le.mpr past
        · have bounds := later.bounds among
          have reached : batch.stop ≤ other.reference.baseOffset := bounds.1
          have further : other.reference.baseOffset < other.stop := bounds.2.1
          omega
      have beyond : ¬ (b ≤ start ∨ batch :: rest = []) := by
        rintro (inside | none)
        · have := later.le
          have reached : batch.stop ≤ b := this
          omega
        · cases none
      rw [if_pos past, none_ends, if_neg beyond]
      rfl
    · have inside : batch.stop ≤ start := Nat.not_lt.mp past
      have resumed : Paged.resume IndexedBatch.stop cursor (batch :: rest) =
          Paged.resume IndexedBatch.stop batch.stop rest := by
        unfold Paged.resume
        cases rest with
        | nil => rfl
        | cons other more =>
          rw [List.getLast?_cons_cons]
          rfl
      have same : (b ≤ start ∨ batch :: rest = []) ↔ (b ≤ start ∨ rest = []) := by
        constructor
        · rintro (reached | none)
          · exact .inl reached
          · cases none
        · rintro (reached | rfl)
          · exact .inl reached
          · have ends : batch.stop = b := later
            exact .inl (ends ▸ inside)
      have drops : batch.endsBy start = true := decide_eq_true inside
      rw [if_neg past, ih later (fun other among => fits other (List.mem_cons_of_mem _ among)),
        List.filter_cons_of_pos drops, List.map_cons, resumed]
      simp only [same]
      rfl

section
variable {index : IndexState} {key : PartitionKey} {slot : PartitionIndex} {start : Nat}

def named (slot : PartitionIndex) (start cursor : Nat) : List ObjectKey :=
  ((Paged.from_ IndexedBatch.stop slot.resident cursor).filter (IndexedBatch.endsBy start)).map
    IndexedBatch.object

/-- A page of a partition: what it tiles, what is left after it, and that it moves on. -/
structure IsPage (slot : PartitionIndex) (cursor : Nat) (page later : List IndexedBatch)
    (low upto : Nat) : Prop where
  split : Paged.from_ IndexedBatch.stop slot.resident cursor = page ++ later
  tiles : Tiles (ObjectRef.baseOffset ∘ IndexedBatch.reference) IndexedBatch.stop page low upto
  after : Tiles (ObjectRef.baseOffset ∘ IndexedBatch.reference) IndexedBatch.stop later upto slot.endOffset
  fits : ∀ batch ∈ page, batch.stop ≤ i64Max
  moves : page ≠ [] → cursor < upto
  resumes : page ≠ [] → Paged.resume IndexedBatch.stop cursor page = upto
  nonempty : Paged.from_ IndexedBatch.stop slot.resident cursor ≠ [] → page ≠ []

theorem exists_page (wf : slot.WF) {cursor : Nat} (started : slot.logStart ≤ cursor)
    (same : index.findBatches key = slot.findBatches) :
    ∃ page later low upto, index.findBatches key cursor u64Max = .ok page ∧
      IsPage slot cursor page later low upto := by
  obtain ⟨page, later, read, split, nonempty⟩ := wf.findBatches_spec started u64Max
  obtain ⟨first, whole⟩ := wf.tiles
  obtain ⟨skipped, hsplit, -⟩ := (tiles_resident.mp whole).filter_above cursor
  obtain ⟨low, -, ahead⟩ := Tiles.append_iff.mp (hsplit ▸ tiles_resident.mp whole)
  obtain ⟨upto, tiles, after⟩ := Tiles.append_iff.mp (split ▸ ahead)
  have seen : ∀ batch ∈ page, batch ∈ slot.resident ∧ cursor < batch.stop := by
    intro batch among
    have listed : batch ∈ slot.resident.filter fun b => decide (cursor < b.reference.stop) :=
      split ▸ List.mem_append_left _ among
    obtain ⟨held, past⟩ := List.mem_filter.mp listed
    exact ⟨held, of_decide_eq_true past⟩
  refine ⟨page, later, low, upto, same ▸ read, split, tiles, after, ?_, ?_, ?_, nonempty⟩
  · exact fun batch among => wf.resident_fits batch (seen batch among).1
  · intro some
    obtain ⟨batch, among⟩ := List.exists_mem_of_ne_nil page some
    exact (seen batch among).2.trans_le (tiles.bounds among).2.2
  · intro some
    obtain ⟨last, hlast⟩ := Option.isSome_iff_exists.mp (List.getLast?_isSome.mpr some)
    unfold Paged.resume
    rw [hlast]
    exact tiles.getLast_hi hlast

/-- The walk that `below` makes is the loop, to its end. -/
theorem belowFrom_walk (wf : slot.WF) (same : index.findBatches key = slot.findBatches)
    {pages cursor : Nat} (started : slot.logStart ≤ cursor) (enough : start - cursor ≤ pages) :
    Walk index key start cursor (belowFrom index key start pages cursor) := by
  induction pages generalizing cursor with
  | zero => exact .reached (Nat.sub_eq_zero_iff_le.mp (Nat.le_zero.mp enough))
  | succ pages ih =>
    unfold belowFrom
    split
    · rename_i reached
      exact .reached reached
    · rename_i more
      have more := Nat.not_le.mp more
      obtain ⟨page, later, low, upto, read, isPage⟩ := exists_page wf started same
      cases page with
      | nil =>
        rw [read]
        exact .ended more read
      | cons batch rest =>
        have some : batch :: rest ≠ [] := List.cons_ne_nil _ _
        rw [read]
        dsimp only
        cases goes : belowPage start (batch :: rest) cursor with
        | mk dropped next =>
        cases next with
        | none => exact .stopped more read some goes
        | some next =>
          have reached : next = upto := by
            rw [belowPage_eq isPage.tiles isPage.fits] at goes
            have := (Prod.mk.inj goes).2
            split at this
            · exact (Option.some.inj this).symm.trans (isPage.resumes some)
            · cases this
          have moves := isPage.moves some
          refine .next more read some goes (ih ?_ ?_)
          · omega
          · omega

/-- However it is paged, the walk names what ends past its cursor and by the trim's start. -/
theorem Walk.eq_named (wf : slot.WF) (same : index.findBatches key = slot.findBatches)
    {cursor : Nat} {dropped : List ObjectKey} (walk : Walk index key start cursor dropped)
    (started : slot.logStart ≤ cursor) : dropped = named slot start cursor := by
  induction walk with
  | @reached cursor done =>
    have nothing : (Paged.from_ IndexedBatch.stop slot.resident cursor).filter
        (IndexedBatch.endsBy start) = [] := by
      apply List.filter_eq_nil_iff.mpr
      intro batch among ends
      have past : cursor < batch.stop := of_decide_eq_true (List.mem_filter.mp among).2
      have inside : batch.stop ≤ start := of_decide_eq_true ends
      omega
    unfold named
    rw [nothing]
    rfl
  | @failed cursor error more read =>
    obtain ⟨page, later, low, upto, read', -⟩ := exists_page wf started same
    rw [read] at read'
    cases read'
  | @ended cursor more read =>
    obtain ⟨page, later, low, upto, read', isPage⟩ := exists_page wf started same
    rw [read] at read'
    cases read'
    have nothing : Paged.from_ IndexedBatch.stop slot.resident cursor = [] := by
      by_contra some
      exact isPage.nonempty some rfl
    unfold named
    rw [nothing]
    rfl
  | @stopped cursor page dropped more read some stops =>
    obtain ⟨page', later, low, upto, read', isPage⟩ := exists_page wf started same
    rw [read] at read'
    cases read'
    rw [belowPage_eq isPage.tiles isPage.fits] at stops
    obtain ⟨rfl, last⟩ := Prod.mk.inj stops
    have past : ¬ upto ≤ start := by
      intro inside
      rw [if_pos (.inl inside)] at last
      cases last
    have nothing : later.filter (IndexedBatch.endsBy start) = [] := by
      apply List.filter_eq_nil_iff.mpr
      intro batch among ends
      have bounds := isPage.after.bounds among
      have further : batch.reference.baseOffset < batch.stop := bounds.2.1
      have begins : upto ≤ batch.reference.baseOffset := bounds.1
      have inside : batch.stop ≤ start := of_decide_eq_true ends
      omega
    unfold named
    rw [isPage.split, List.filter_append, nothing, List.append_nil]
  | @next cursor next page dropped later more read some goes rest ih =>
    obtain ⟨page', ahead, low, upto, read', isPage⟩ := exists_page wf started same
    rw [read] at read'
    cases read'
    rw [belowPage_eq isPage.tiles isPage.fits] at goes
    obtain ⟨rfl, reached⟩ := Prod.mk.inj goes
    have moves := isPage.moves some
    have resumed : next = upto := by
      split at reached
      · exact (Option.some.inj reached).symm.trans (isPage.resumes some)
      · cases reached
    subst resumed
    have further := Paged.from_append isPage.split isPage.tiles isPage.after moves.le
    rw [ih (started.trans moves.le)]
    unfold named
    rw [isPage.split, further, List.filter_append, List.map_append]

end

/-- A partition's slot, which is empty when the index has none. -/
abbrev slotOf (index : IndexState) (key : PartitionKey) : PartitionIndex :=
  (index.partition key).getD {}

theorem findBatches_slotOf (index : IndexState) (key : PartitionKey) :
    index.findBatches key = (slotOf index key).findBatches := by
  funext start maxBytes
  unfold IndexState.findBatches slotOf
  cases index.partition key with
  | some slot => rfl
  | none => exact (if_neg (Nat.not_lt_zero start)).symm

theorem named_eq (slot : PartitionIndex) (start cursor : Nat) :
    named slot start cursor = ((slot.refs.filter fun r => decide (r.stop ≤ start)).filter
      fun r => decide (cursor < r.stop)).map ObjectRef.object := by
  unfold named Paged.from_
  rw [← slot.resident_reference, List.filter_map, List.filter_map, List.map_map, List.filter_filter,
    List.filter_filter]
  congr 1
  apply List.filter_congr
  intro batch _
  exact Bool.and_comm _ _

theorem below_walk (task : Retention) (sound : task.cell.index.Sound) (key : PartitionKey)
    (start : Nat) :
    Walk task.cell.index key start (task.cell.index.logStart key) (task.below key start) := by
  apply belowFrom_walk (sound.slot_wf key) (findBatches_slotOf task.cell.index key)
  · exact (IndexState.logStart_eq task.cell.index key).ge
  · exact le_rfl

theorem below_eq (task : Retention) (sound : task.cell.index.Sound) (key : PartitionKey)
    (start : Nat) : task.below key start =
      (((task.cell.index.refsOf key).filter fun r => decide (r.stop ≤ start)).filter
        fun r => decide (task.cell.index.logStart key < r.stop)).map ObjectRef.object := by
  have started : (slotOf task.cell.index key).logStart ≤ task.cell.index.logStart key :=
    (IndexState.logStart_eq task.cell.index key).ge
  rw [(below_walk task sound key start).eq_named (sound.slot_wf key)
    (findBatches_slotOf task.cell.index key) started, named_eq, IndexState.refsOf_eq]

/-- What is looked up is what the trim drops, exactly if nothing it drops ended at or below the
log start already. -/
theorem below_exact_iff (task : Retention) (sound : task.cell.index.Sound) (key : PartitionKey)
    {start : Nat} (moves : task.cell.index.logStart key < start) :
    task.below key start = ((slotOf task.cell.index key).trim start).1 ↔
      task.cell.index.Unended key := by
  have moves' : (slotOf task.cell.index key).logStart < start :=
    (IndexState.logStart_eq task.cell.index key).symm ▸ moves
  rw [below_eq task sound, (sound.slot_wf key).trim_objects moves', IndexState.refsOf_eq]
  unfold IndexState.Unended
  rw [IndexState.refsOf_eq]
  constructor
  · intro same r held
    by_contra ended
    have inside : r ∈ (slotOf task.cell.index key).refs.filter fun r => decide (r.stop ≤ start) := by
      apply List.mem_filter.mpr
      refine ⟨held, decide_eq_true ?_⟩
      omega
    have lengths := congrArg List.length same
    rw [List.length_map, List.length_map] at lengths
    have all := List.length_filter_eq_length_iff.mp lengths r inside
    exact ended (of_decide_eq_true all)
  · intro unended
    congr 1
    apply List.filter_eq_self.mpr
    intro r among
    exact decide_eq_true (unended r (List.mem_of_mem_filter among))

/-- A trim a task makes: what the task was then, what it was answered, and of what. -/
structure TrimMade where
  before : Retention
  answer : TrimAnswer
  topic : TopicId
  partition : Nat
  start : Nat

namespace TrimMade

def key (self : TrimMade) : PartitionKey := (self.topic, self.partition)

def after (self : TrimMade) : Retention :=
  (self.before.trim self.answer self.topic self.partition self.start).1

/-- What the trim hands to the deleter. -/
def released (self : TrimMade) : List ObjectKey :=
  match self.answer.outcome with
  | .ok _ => self.before.below self.key self.start
  | .error _ => []

def entry (self : TrimMade) (version : Nat) : MetadataEntry :=
  ⟨version, .trimmed self.topic self.partition self.start⟩

/-- The log has the trim after the entries the task had not folded. -/
def Journaled (self : TrimMade) (missed : List MetadataEntry) (version : Nat) : Prop :=
  self.before.cell.folded ++ missed ++ [self.entry version] <+: self.after.line

/-- An index that has the log up to the trim loses the last name of an object by folding it. -/
def Unnames (self : TrimMade) (missed : List MetadataEntry) (version : Nat) (object : ObjectKey) : Prop :=
  ∃ (other : Cell) (folded : IndexState), Tracks self.after.line other ∧
    other.folded = self.before.cell.folded ++ missed ∧
    other.index.apply [self.entry version] = .ok folded ∧
    0 < other.index.references.get object ∧ folded.references.get object = 0

/-- What the lookup can see is what the trim will drop: nothing ended by the log start, and
nothing in between puts anything below the trim. -/
structure Apart (made : TrimMade) (missed : List MetadataEntry) : Prop where
  unended : made.before.cell.index.Unended made.key
  uninstalled : ∀ entry ∈ missed, ¬ entry.record.InstallsBelow made.key made.start

theorem lifecycle_after (self : TrimMade) :
    self.after.lifecycle = self.released.foldl Lifecycle.release self.before.lifecycle := by
  unfold after released Retention.trim key
  dsimp only
  cases self.answer.outcome with
  | ok version => rfl
  | error error => cases error <;> rfl

/-- A trim whose lookup sees what the trim will drop hands over all that it unnames. -/
theorem Apart.releases {made : TrimMade} {missed : List MetadataEntry} (apart : made.Apart missed)
    (follows : Tracks made.before.line made.before.cell)
    (inside : made.start ≤ made.before.cell.index.endOffset made.key) {version : Nat}
    {object : ObjectKey} (unnames : made.Unnames missed version object) :
    object ∈ made.before.below made.key made.start := by
  obtain ⟨other, folded, tracks, hfolded, happly, named, unnamed⟩ := unnames
  obtain ⟨r, held, ends, rfl⟩ := tracks.sound.named_below_trim happly named unnamed
  -- Both indexes are folds of one log, the task's of less of it.
  have fold := tracks.unbounded
  rw [hfolded] at fold
  have whole := (IndexState.Sound.new.page_agrees rfl _ _).mp fold
  rw [List.foldlM_append, bind_eq_ok] at whole
  obtain ⟨mid, first, rest⟩ := whole
  have same : mid = made.before.cell.index.unbounded := by
    have task := (IndexState.Sound.new.page_agrees rfl _ _).mp follows.unbounded
    exact Except.ok.inj (first.symm.trans task)
  subst same
  have sound : made.before.cell.index.unbounded.Sound :=
    IndexState.Sound.new.apply follows.unbounded
  have there : r ∈ made.before.cell.index.refsOf made.key :=
    sound.foldlM_refsOf rest inside apart.uninstalled held ends
  rw [below_eq _ follows.sound]
  apply List.mem_map_of_mem
  apply List.mem_filter.mpr
  refine ⟨List.mem_filter.mpr ⟨there, decide_eq_true ends⟩, ?_⟩
  exact decide_eq_true (apart.unended r there)

end TrimMade

section
variable (catalog : TopicCatalog)

/-- The trims that `trimEach` makes. -/
def eachTrim (answers : Nat → TrimAnswer) : Nat → List MetadataRecord → Retention → List TrimMade
  | _, [], _ => []
  | made, .trimmed topic partition start :: rest, self =>
    let trim := ⟨self, answers made, topic, partition, start⟩
    match self.trim (answers made) topic partition start with
    | (_, false) => [trim]
    | (self, true) => trim :: eachTrim answers (made + 1) rest self
  | made, _ :: rest, self => eachTrim answers made rest self

def roundTrims (self : Retention) (round : Round) : List TrimMade :=
  let self := self.beforePop catalog round
  if self.synced && self.lifecycle.admits then
    let (heap, trims) := self.heap.dueAt self.cell.index round.now
    eachTrim round.trims 0 trims { self with heap := heap }
  else []

def eventTrims (self : Retention) : RetentionEvent → List TrimMade
  | .tick round => if self.stopped then [] else self.roundTrims catalog round
  | _ => []

def trimsMade : Retention → List RetentionEvent → List TrimMade
  | _, [] => []
  | self, event :: rest => self.eventTrims catalog event ++ trimsMade (self.step catalog event) rest

variable {task : Retention}

theorem Inv.eachTrim (answers : Nat → TrimAnswer) {made : Nat} {trims : List MetadataRecord}
    (inv : task.Inv) (synced : task.synced = true)
    (due : ∀ record ∈ trims, ∀ topic partition start, record = .trimmed topic partition start →
      start = task.cell.index.endOffset (topic, partition) ∧
        task.cell.index.logStart (topic, partition) < start) :
    ∀ trim ∈ Retention.eachTrim answers made trims task, Tracks trim.before.line trim.before.cell ∧
      trim.start = trim.before.cell.index.endOffset trim.key ∧
      trim.before.cell.index.logStart trim.key < trim.start := by
  fun_induction Retention.eachTrim answers made trims task with
  | case1 made self => exact fun trim among => absurd among List.not_mem_nil
  | case2 made topic partition start rest self _ after stopped =>
    intro trim among
    rcases List.mem_singleton.mp among with rfl
    exact ⟨inv.follows synced, due _ (List.mem_cons_self ..) _ _ _ rfl⟩
  | case3 made topic partition start rest self _ after trimmed ih =>
    obtain ⟨held, still⟩ := inv.trim synced (answers made) topic partition start
    have cell := (self.trim_spec (answers made) topic partition start).2.1
    rw [trimmed] at held still cell
    intro trim among
    rcases List.mem_cons.mp among with rfl | among
    · exact ⟨inv.follows synced, due _ (List.mem_cons_self ..) _ _ _ rfl⟩
    · refine ih held still ?_ trim among
      rw [cell]
      exact fun record there => due record (List.mem_cons_of_mem _ there)
  | case4 made record rest self notTrim ih =>
    exact ih inv synced fun record there => due record (List.mem_cons_of_mem _ there)

theorem Inv.roundTrims (inv : task.Inv) (round : Round) :
    ∀ trim ∈ task.roundTrims catalog round, Tracks trim.before.line trim.before.cell ∧
      trim.start = trim.before.cell.index.endOffset trim.key ∧
      trim.before.cell.index.logStart trim.key < trim.start := by
  have ready : (task.beforePop catalog round).Inv := by
    unfold beforePop
    refine Inv.frame ?_ (frame_reconcileConfigurations catalog _)
    split
    · exact inv
    · exact inv.rebuild catalog round.rebuilds
  unfold Retention.roundTrims
  generalize task.beforePop catalog round = self at ready
  dsimp only
  split
  · rename_i both
    have synced : self.synced = true := (Bool.and_eq_true_iff.mp both).1
    have popped : ({ self with
        heap := (self.heap.dueAt self.cell.index round.now).1 } : Retention).Inv :=
      ready.frame ⟨rfl, rfl, rfl⟩
    apply popped.eachTrim round.trims synced
    intro record there topic partition start same
    obtain ⟨key, deadline, -, -, -, holds, whole⟩ :=
      (self.heap.dueAt_spec self.cell.index round.now).2 record there
    rw [same] at whole
    cases whole
    exact ⟨rfl, holds⟩
  · exact fun trim among => absurd among List.not_mem_nil

theorem Inv.trimsMade (inv : task.Inv) {events : List RetentionEvent}
    (meets : AllMeet catalog task events) :
    ∀ trim ∈ task.trimsMade catalog events, Tracks trim.before.line trim.before.cell ∧
      trim.start = trim.before.cell.index.endOffset trim.key ∧
      trim.before.cell.index.logStart trim.key < trim.start := by
  induction events generalizing task with
  | nil => exact fun trim among => absurd among List.not_mem_nil
  | cons event rest ih =>
    intro trim among
    unfold Retention.trimsMade at among
    rcases List.mem_append.mp among with now | later
    · cases event with
      | tick round =>
        change trim ∈ if task.stopped = true then [] else task.roundTrims catalog round at now
        by_cases stopped : task.stopped = true
        · rw [if_pos stopped] at now
          exact absurd now List.not_mem_nil
        · rw [if_neg stopped] at now
          exact inv.roundTrims catalog round trim now
      | delta | lagged | closed | appended => exact absurd now List.not_mem_nil
    · exact ih (inv.step catalog meets.1) meets.2 trim later

/-- What the task is on record to have trimmed. -/
def trimsActed (self : Retention) : List Acted :=
  self.acted.filter fun acted => decide (acted.action ≠ .sweep)

def TrimMade.acted (self : TrimMade) : Acted :=
  ⟨.trim self.topic self.partition self.start, self.before.cell⟩

theorem trimsActed_trim (self : Retention) (answer : TrimAnswer) (topic : TopicId)
    (partition start : Nat) : (self.trim answer topic partition start).1.trimsActed =
      self.trimsActed ++ [⟨.trim topic partition start, self.cell⟩] := by
  unfold trimsActed
  rw [(self.trim_spec answer topic partition start).2.2, List.filter_append]
  rfl

theorem trimsActed_trimEach (answers : Nat → TrimAnswer) (made : Nat) (trims : List MetadataRecord)
    (self : Retention) : (trimEach answers made trims self).1.trimsActed =
      self.trimsActed ++ (eachTrim answers made trims self).map TrimMade.acted := by
  fun_induction Retention.eachTrim answers made trims self with
  | case1 made self => exact (List.append_nil _).symm
  | case2 made topic partition start rest self _ after stopped =>
    have one := self.trimsActed_trim (answers made) topic partition start
    unfold trimEach
    rw [stopped] at one ⊢
    exact one
  | case3 made topic partition start rest self _ after trimmed ih =>
    have one := self.trimsActed_trim (answers made) topic partition start
    unfold trimEach
    rw [trimmed] at one ⊢
    dsimp only at one ⊢
    rw [ih, one, List.append_assoc]
    rfl
  | case4 made record rest self notTrim ih =>
    rw [trimEach.eq_3 _ _ _ _ _ notTrim]
    exact ih

theorem trimsActed_trimExpired (self : Retention) (round : Round) :
    (self.trimExpired round).1.trimsActed = self.trimsActed ++ (if self.lifecycle.admits then
      eachTrim round.trims 0 (self.heap.dueAt self.cell.index round.now).2
        { self with heap := (self.heap.dueAt self.cell.index round.now).1 } else []).map
          TrimMade.acted := by
  unfold trimExpired
  split
  · exact trimsActed_trimEach ..
  · exact (List.append_nil _).symm

theorem trimsActed_round (self : Retention) (round : Round) :
    (self.round catalog round).trimsActed =
      self.trimsActed ++ (self.roundTrims catalog round).map TrimMade.acted := by
  have same : (if self.synced then self else self.rebuild catalog round.rebuilds).acted = self.acted := by
    split
    · rfl
    · exact acted_rebuild self round.rebuilds
  unfold Retention.round Retention.roundTrims beforePop
  generalize (if self.synced then self else self.rebuild catalog round.rebuilds) = held at same
  obtain ⟨-, still, kept⟩ := frame_reconcileConfigurations catalog held
  dsimp only
  rw [← still]
  generalize held.reconcileConfigurations catalog = ready at kept
  have recorded : ready.trimsActed = self.trimsActed := by
    unfold trimsActed
    rw [kept, same]
  have made := ready.trimsActed_trimExpired round
  rw [recorded] at made
  by_cases synced : ready.synced = true
  · have both : (ready.synced && ready.lifecycle.admits) = ready.lifecycle.admits := by
      rw [synced, Bool.true_and]
    rw [if_neg (by rw [synced]; exact Bool.false_ne_true), both]
    cases htrim : ready.trimExpired round with
    | mk after going =>
    rw [htrim] at made
    cases going with
    | false => exact made
    | true =>
      refine Eq.trans ?_ made
      unfold trimsActed sweep did
      dsimp only
      rw [List.filter_append]
      exact List.append_nil _
  · have neither : ready.synced = false := Bool.not_eq_true _ |>.mp synced
    have stays : (ready.synced && ready.lifecycle.admits) = false := by
      rw [neither, Bool.false_and]
    rw [if_pos (by rw [neither]; rfl), stays]
    unfold trimsActed
    rw [same]
    exact (List.append_nil _).symm

/-- The trims of a run are those it is on record to have made. -/
theorem trimsActed_run (self : Retention) (events : List RetentionEvent) :
    (events.foldl (Retention.step catalog) self).trimsActed =
      self.trimsActed ++ (self.trimsMade catalog events).map TrimMade.acted := by
  induction events generalizing self with
  | nil => exact (List.append_nil _).symm
  | cons event rest ih =>
    have once : (self.step catalog event).trimsActed =
        self.trimsActed ++ (self.eventTrims catalog event).map TrimMade.acted := by
      unfold Retention.step
      by_cases stopped : self.stopped = true
      · rw [if_pos stopped]
        cases event with
        | tick round =>
          change _ = _ ++ (if self.stopped = true then [] else self.roundTrims catalog round).map _
          rw [if_pos stopped]
          exact (List.append_nil _).symm
        | delta | lagged | closed | appended => exact (List.append_nil _).symm
      · rw [if_neg stopped]
        cases event with
        | tick round =>
          change _ = _ ++ (if self.stopped = true then [] else self.roundTrims catalog round).map _
          rw [if_neg stopped]
          exact self.trimsActed_round catalog round
        | delta entry reads =>
          unfold trimsActed
          rw [show (self.fold catalog entry reads).acted = self.acted from acted_fold self entry reads]
          exact (List.append_nil _).symm
        | lagged reads =>
          unfold trimsActed
          rw [show (self.rebuild catalog reads).acted = self.acted from acted_rebuild self reads]
          exact (List.append_nil _).symm
        | closed => exact (List.append_nil _).symm
        | appended entries => exact (List.append_nil _).symm
    unfold Retention.trimsMade
    rw [List.foldl_cons, ih, once, List.map_append, List.append_assoc]

/-- In a run of a task that is pushed what it has or what the log has next: every lookup is
the loop run to its end; it names exactly what the trim drops of the index it was made on, if
and only if nothing there ended by the log start; and where also nothing came in below the trim
until it was journaled, every object its fold takes the last name off is released. -/
theorem trims_release_unnamed (written : List MetadataEntry) (index : IndexState) (task : Retention)
    (reads : List LogRead) (events : List RetentionEvent)
    (opened : Retention.new (MetadataLog.grow [] written) index = .ok task)
    (meets : AllMeet catalog (task.rebuild catalog reads) events) :
    (task.run catalog reads events).trimsActed =
      ((task.rebuild catalog reads).trimsMade catalog events).map TrimMade.acted ∧
    ∀ made ∈ (task.rebuild catalog reads).trimsMade catalog events,
      Walk made.before.cell.index made.key made.start (made.before.cell.index.logStart made.key)
        (made.before.below made.key made.start) ∧
      (made.before.below made.key made.start =
          ((slotOf made.before.cell.index made.key).trim made.start).1 ↔
        made.before.cell.index.Unended made.key) ∧
      made.after.lifecycle = made.released.foldl Lifecycle.release made.before.lifecycle ∧
      ∀ version answered missed, made.answer.outcome = .ok answered →
        made.Journaled missed version → made.Apart missed →
          ∀ object, made.Unnames missed version object → object ∈ made.released := by
  have start : MetadataLog.Ascending (MetadataLog.grow [] written) :=
    Ascending.grow List.Pairwise.nil written
  obtain ⟨lifecycle, -, htask⟩ := bind_eq_ok.mp opened
  cases htask
  have initial : ({ line := MetadataLog.grow [] written, cell := Cell.clear ⟨index, []⟩
                    heap := .new defaultRetentionMs, lifecycle := lifecycle } : Retention).Inv :=
    ⟨start, nofun, fun a among => absurd among List.not_mem_nil⟩
  have rebuilt := initial.rebuild catalog reads
  constructor
  · unfold Retention.run
    rw [trimsActed_run]
    unfold trimsActed
    rw [acted_rebuild]
    rfl
  · intro made among
    obtain ⟨follows, whole, holds⟩ := rebuilt.trimsMade catalog meets made among
    refine ⟨?_, ?_, made.lifecycle_after, ?_⟩
    · exact below_walk made.before follows.sound made.key made.start
    · exact below_exact_iff made.before follows.sound made.key holds
    · intro version answered missed answer journaled apart object unnames
      unfold TrimMade.released
      rw [answer]
      exact apart.releases follows whole.le unnames

end

def commits : List MetadataEntry :=
  [⟨0, .batchCommitted ⟨"a"⟩ [⟨⟨"t"⟩, 0, 1, .full, none⟩] 5⟩,
    ⟨1, .batchCommitted ⟨"b"⟩ (List.replicate 128 ⟨⟨"t"⟩, 0, 1, .full, none⟩) 5⟩]

/-- A compaction puts the first batch, the one that has left the tail, into an object of its own. -/
def compacted : MetadataEntry :=
  ⟨2, .rangeCompacted ⟨"t"⟩ 0 [⟨⟨"a"⟩, 0, 1⟩] [⟨⟨"m"⟩, 0, 1⟩]⟩

/-- The trim of all that was committed, as the log holds it after that. -/
def trimmedThen : MetadataEntry := ⟨3, .trimmed ⟨"t"⟩ 0 129⟩

/-- The compaction lands while a round waits for its trim. -/
def compactedMeanwhile : RetentionEvent :=
  .tick { now := 604800005
          trims := fun _ => ⟨[compacted, trimmedThen], .ok 3⟩
          deletes := fun _ => true }

def wholeLog : List LogRead := [⟨[], .ok 200⟩, ⟨[], .ok 200⟩]

/-- The merged object loses its only name to the trim, and is not released. -/
theorem compacted_unreleased : ∃ task, Retention.new (MetadataLog.grow [] commits) .new = .ok task ∧
    AllMeet unset (task.rebuild unset wholeLog) [compactedMeanwhile] ∧
    ∃ made ∈ (task.rebuild unset wholeLog).trimsMade unset [compactedMeanwhile],
      made.answer.outcome.toOption = some 3 ∧ made.Journaled [compacted] 3 ∧
      made.Unnames [compacted] 3 ⟨"m"⟩ ∧ ⟨"m"⟩ ∉ made.released := by
  refine ⟨_, rfl, ⟨trivial, trivial⟩, ?_⟩
  generalize htrims : Retention.trimsMade unset _ _ = trims
  have seen : trims.map (fun made => (made.entry 3, made.answer.outcome.toOption,
      made.before.cell.folded, made.after.line, decide (⟨"m"⟩ ∈ made.released))) =
        [(trimmedThen, some 3, commits, commits ++ [compacted, trimmedThen], false)] := by
    rw [← htrims]
    decide +kernel
  obtain ⟨made, alone, hmade⟩ := List.map_eq_singleton_iff.mp seen
  obtain ⟨hentry, hmade⟩ := Prod.mk.inj hmade
  obtain ⟨answered, hmade⟩ := Prod.mk.inj hmade
  obtain ⟨hfolded, hmade⟩ := Prod.mk.inj hmade
  obtain ⟨hline, unreleased⟩ := Prod.mk.inj hmade
  have counts : ((IndexState.new.apply (commits ++ [compacted]) >>= fun before =>
      (before.apply [trimmedThen]).map fun after =>
        (before.references.get ⟨"m"⟩, after.references.get ⟨"m"⟩)).toOption) = some (1, 0) := by
    decide +kernel
  cases hbefore : IndexState.new.apply (commits ++ [compacted]) with
  | error error =>
    rw [hbefore] at counts
    cases counts
  | ok before =>
  rw [hbefore, bind_ok] at counts
  cases hafter : before.apply [trimmedThen] with
  | error error =>
    rw [hafter] at counts
    cases counts
  | ok after =>
  rw [hafter] at counts
  obtain ⟨one, none⟩ := Prod.mk.inj (Option.some.inj counts)
  have tracks : Tracks made.after.line ⟨before, commits ++ [compacted]⟩ := by
    constructor
    · rw [hline]
      exact ⟨[trimmedThen], List.append_assoc ..⟩
    · have fresh : before.clear = IndexState.new := by
        unfold IndexState.clear
        rw [IndexState.quota_apply hbefore]
        rfl
      dsimp only
      rw [fresh]
      exact IndexState.Sound.new.apply_advance hbefore
  refine ⟨made, alone ▸ List.mem_singleton_self made, answered, ?_, ?_, of_decide_eq_false unreleased⟩
  · unfold TrimMade.Journaled
    rw [hfolded, hentry, hline, List.append_assoc]
    exact List.prefix_refl _
  · refine ⟨⟨before, commits ++ [compacted]⟩, after, tracks, ?_, ?_, ?_, none⟩
    · rw [hfolded]
    · rw [hentry]
      exact hafter
    · exact one ▸ Nat.one_pos

/-- A trim of everything, with a commit to the partition landing before it. -/
def committedMeanwhile : RetentionEvent :=
  .tick { now := 604800005
          trims := fun _ =>
            ⟨[⟨1, .batchCommitted ⟨"b"⟩ [⟨⟨"t"⟩, 0, 3, .full, none⟩] 6⟩, ⟨2, .trimmed ⟨"t"⟩ 0 2⟩], .ok 2⟩
          deletes := fun _ => true }

theorem trims_release_unnamed_committed :
    ∃ task, Retention.new (MetadataLog.grow [] [firstCommit]) .new = .ok task ∧
      ((task.rebuild unset wholeLog).trimsMade unset [committedMeanwhile]).map TrimMade.released =
        [[⟨"a"⟩]] ∧
      ∀ made ∈ (task.rebuild unset wholeLog).trimsMade unset [committedMeanwhile],
        ∀ version answered missed, made.answer.outcome = .ok answered →
          made.Journaled missed version → made.Apart missed →
            ∀ object, made.Unnames missed version object → object ∈ made.released := by
  refine ⟨_, rfl, by decide +kernel, ?_⟩
  intro made among
  have run := trims_release_unnamed unset [firstCommit] .new _ wholeLog [committedMeanwhile] rfl
    ⟨trivial, trivial⟩
  exact (run.2 made among).2.2.2

end Retention

end Oqueue
