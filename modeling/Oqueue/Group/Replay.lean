import Oqueue.Group.Writers
import Oqueue.Library.Paged
import Oqueue.Log.Open

/-!
# Replaying the group log

A node that starts opens the log and folds it twice, page by page: into the committed offsets,
and into the coordinator's records and rosters. A transition that the records do not allow takes
its group out of the rest of the replay.
-/

namespace Oqueue

namespace Log.Opening

variable {Entry : Type} (F : SegmentFormat Entry)

/-- The requests of an `open`, one after another, while nothing else moves the store. -/
def finish (store : Store) : Nat → Opening Entry → Option (Except Error (State Entry))
  | 0, _ => none
  | fuel + 1, opening => match opening.serve F store with
    | .inl opening => opening.finish store fuel
    | .inr result => some result

end Log.Opening

namespace GroupLog

open Log Checked

def replayPageSize : Nat := 256

/-- The loop that the two replays share. -/
def replayPages {σ : Type} (log : State Entry) (step : σ → Entry → Except Error σ) (fuel : Nat)
    (s : σ) : Except Error σ :=
  Paged.fold (fun start => .ok (log.readFrom groupSegments start replayPageSize))
    groupSegments.version (fun version => CommitVersion.advance version 1) replayPageSize step fuel
    0 s

def applyOffset (offsets : Offsets) (entry : Entry) : Except Error Offsets :=
  .ok (entry.val.record.apply entry.val.version offsets)

/-- `CommittedOffsets::replay`. -/
def replayOffsets (log : State Entry) (fuel : Nat) : Except Error Offsets :=
  replayPages log applyOffset fuel ∅

structure Replaying where
  coordinator : GroupCoordinator := {}
  poisoned : List GroupId := []

def Replaying.take (self : Replaying) (entry : Entry) : Except Error Replaying :=
  match entry.val.record with
  | .groupTransitioned group event =>
    if group ∈ self.poisoned then .ok self
    else match self.coordinator.transition group event with
      | .ok (coordinator, _) => .ok { self with coordinator :=
          if event = .allMembersGone ∨ event = .expire then coordinator.setRoster group none
          else coordinator }
      | .error (.illegalGroupTransition _ _) =>
        .ok { self with poisoned := group :: self.poisoned }
      | .error other => .error other
  | .groupRosterUpdated group roster =>
    if group ∈ self.poisoned then .ok self
    else .ok { self with coordinator := self.coordinator.setRoster group roster }
  | .offsetCommitted .. => .ok self

/-- `GroupTransitionsTask::replay`, into a coordinator that knows nothing yet. -/
def replayTransitions (log : State Entry) (fuel : Nat) : Except Error GroupCoordinator :=
  (replayPages log Replaying.take fuel {}).map Replaying.coordinator

/-- A writer whose caller the crash cuts off. -/
def Writer.cutOff (self : Writer) : Writer :=
  if self.phase.ended then self else { self with phase := .answered (.error .transient) }

/-- A node with a group log, and the writers that crashes cut off, for the proofs. -/
structure Node where
  world : World
  cut : Nat → Bool := fun _ => false

inductive Event where
  | act (action : Action)
  | restart (fuel : Nat)

namespace Node

/-- The node stops wherever it is, and a new one opens the log and replays it. The store serves
no put of the node that stopped any more. -/
def restart (self : Node) (fuel : Nat) : Option Node := do
  let log ← (← Opening.finish groupSegments self.world.store fuel (.basing .first)).toOption
  let offsets ← (replayOffsets log fuel).toOption
  let coordinator ← (replayTransitions log fuel).toOption
  return {
    world := {
      store := self.world.store
      log
      coordinator
      offsets
      writers := fun id => (self.world.writers id).map Writer.cutOff
      line := self.world.line }
    cut := fun id => self.cut id || (self.world.writers id).any fun writer => !writer.phase.ended }

def step (self : Node) : Event → Option Node
  | .act action => (self.world.step action).map fun world => { self with world }
  | .restart fuel => self.restart fuel

/-- A log that nothing was written to. -/
def start : Node where
  world := { log := ⟨0, [], none, 0, none, 0⟩ }

end Node

theorem replayPages_eq {σ : Type} {log : State Entry} {step : σ → Entry → Except Error σ}
    (rising : Rising groupSegments log.entries)
    (small : ∀ entry ∈ log.entries, entry.val.version < u64Max) {fuel : Nat}
    (enough : log.entries.length < fuel) (s : σ) :
    replayPages log step fuel s = log.entries.foldlM step s := by
  have all : log.entries.filter (fun entry => decide (0 ≤ groupSegments.version entry)) =
      log.entries := List.filter_eq_self.mpr fun _ _ => decide_eq_true (Nat.zero_le _)
  have pages (start : Nat) :
      (Except.ok (log.readFrom groupSegments start replayPageSize) : Except Error (List Entry)) =
        .ok ((log.entries.filter fun entry =>
          decide (start ≤ groupSegments.version entry)).take replayPageSize) := rfl
  have goes (entry : Entry) (among : entry ∈ log.entries) :
      CommitVersion.advance (groupSegments.version entry) 1 =
        .ok (groupSegments.version entry + 1) :=
    CommitVersion.advance_eq_ok.mpr ⟨rfl, small entry among⟩
  refine (Paged.fold_eq rising pages goes (by decide) (by rwa [all]) s).trans ?_
  rw [all]

/-- One segment for each entry, numbered from zero, and no base. -/
structure Stored (store : Store) (entries : List Entry) : Prop where
  numbered : ∀ (i : Nat) (entry : Entry), entries[i]? = some entry → entry.val.version = i
  segments : ∀ i, (store.segments i).map groupSegments.decode =
    entries[i]?.map fun entry => .ok [entry]
  bases : ∀ g, store.bases g = none

namespace Stored

variable {store : Store} {entries : List Entry}

theorem rising (stored : Stored store entries) : Rising groupSegments entries := by
  refine List.pairwise_iff_getElem.mpr fun i j hi hj below => ?_
  have first := stored.numbered i _ (List.getElem?_eq_getElem hi)
  have second := stored.numbered j _ (List.getElem?_eq_getElem hj)
  change (entries[i]).val.version < (entries[j]).val.version
  omega

theorem version_lt (stored : Stored store entries) {entry : Entry} (among : entry ∈ entries) :
    entry.val.version < entries.length := by
  obtain ⟨i, there⟩ := List.getElem?_of_mem among
  rw [stored.numbered i entry there]
  exact (List.getElem?_eq_some_iff.mp there).1

theorem lastVersion_take (stored : Stored store entries) {k : Nat} (le : k ≤ entries.length) :
    lastVersion groupSegments (entries.take k) = if k = 0 then none else some (k - 1) := by
  unfold lastVersion
  cases k with
  | zero => rfl
  | succ k =>
    obtain ⟨entry, there⟩ : ∃ entry, entries[k]? = some entry := ⟨_, List.getElem?_eq_getElem le⟩
    rw [List.take_add_one, there, Option.toList_some, List.getLast?_concat, Option.map_some,
      if_neg (Nat.succ_ne_zero k)]
    exact congrArg some (stored.numbered k _ there)

theorem snoc (stored : Stored store entries) {entry : Entry} {payload : List UInt8}
    (version : entry.val.version = entries.length)
    (decoded : groupSegments.decode payload = .ok [entry]) :
    Stored (store.setSegment entries.length (some payload)) (entries ++ [entry]) where
  numbered := by
    intro i other held
    rw [List.getElem?_append] at held
    split at held
    · exact stored.numbered i other held
    · rename_i ge
      obtain ⟨lt, rfl⟩ := List.getElem?_eq_some_iff.mp held
      rw [List.length_singleton] at lt
      rw [List.getElem_singleton, version]
      omega
  segments := by
    intro i
    unfold Store.setSegment
    dsimp only
    rcases Nat.lt_trichotomy i entries.length with before | rfl | after
    · rw [Function.update_of_ne before.ne, List.getElem?_append_left before]
      exact stored.segments i
    · rw [Function.update_self, List.getElem?_concat_length, Option.map_some, Option.map_some,
        decoded]
    · rw [Function.update_of_ne after.ne', stored.segments i,
        List.getElem?_eq_none after.le, List.getElem?_eq_none]
      rw [List.length_append, List.length_singleton]
      exact after
  bases := stored.bases

theorem finish_walking (stored : Stored store entries) (short : entries.length < 2 ^ 64)
    {fuel k : Nat} (le : k ≤ entries.length) :
    Opening.finish groupSegments store fuel (.walking none ⟨0, none⟩ (entries.take k) k) =
      if entries.length - k + 2 ≤ fuel then
        some (.ok ⟨entries.length, entries, none, 0, none, 0⟩)
      else none := by
  induction fuel generalizing k with
  | zero => rfl
  | succ fuel ih =>
    have segment := stored.segments k
    unfold Opening.finish
    rcases Nat.lt_or_ge k entries.length with more | all
    · obtain ⟨entry, there⟩ : ∃ entry, entries[k]? = some entry :=
        ⟨_, List.getElem?_eq_getElem more⟩
      rw [there, Option.map_some] at segment
      obtain ⟨bytes, present, decoded⟩ := Option.map_eq_some_iff.mp segment
      have grown : entries.take k ++ [entry] = entries.take (k + 1) := by
        rw [List.take_add_one, there]
        rfl
      have valid : validate groupSegments [entry] (lastVersion groupSegments (entries.take k)) =
          .ok () := by
        refine Rising.valid ?_
        rw [grown]
        exact stored.rising.sublist (List.take_sublist _ _)
      have read : Opening.extended groupSegments (entries.take k) bytes =
          .ok (entries.take (k + 1)) := by
        unfold Opening.extended
        rw [decoded, bind_ok, valid, bind_ok, grown]
        rfl
      have advanced : next k = .ok (k + 1) :=
        CommitVersion.advance_eq_ok.mpr ⟨rfl, by unfold u64Max; omega⟩
      simp only [Opening.serve, present, read, advanced]
      refine (ih more).trans (if_congr ?_ rfl rfl)
      omega
    · obtain rfl : k = entries.length := Nat.le_antisymm le all
      have absent : store.segments entries.length = none := by
        rw [List.getElem?_eq_none (Nat.le_refl _), Option.map_none, Option.map_eq_none_iff]
          at segment
        exact segment
      simp only [Opening.serve, absent, Nat.sub_self]
      cases fuel with
      | zero => rfl
      | succ fuel =>
        have done : Opening.finish groupSegments store (fuel + 1)
            (.confirming none ⟨0, none⟩ entries entries.length .first) =
              some (.ok ⟨entries.length, entries, none, 0, none, 0⟩) := by
          simp only [Opening.finish, Opening.serve, Search.resume, stored.bases]
          rfl
        rw [List.take_length, done, if_pos (by omega)]

theorem finish_eq (stored : Stored store entries) (short : entries.length < 2 ^ 64) (fuel : Nat) :
    Opening.finish groupSegments store fuel (.basing .first) =
      if entries.length + 3 ≤ fuel then
        some (.ok ⟨entries.length, entries, none, 0, none, 0⟩)
      else none := by
  cases fuel with
  | zero => rfl
  | succ fuel =>
    unfold Opening.finish
    simp only [Opening.serve, Search.resume, stored.bases, Opening.walk]
    refine (stored.finish_walking short (Nat.zero_le _)).trans (if_congr ?_ rfl rfl)
    omega

end Stored

end GroupLog

end Oqueue
