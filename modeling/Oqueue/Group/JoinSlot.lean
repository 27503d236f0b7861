import Oqueue.Group.JoinMoves

/-!
# One barrier per join round

The in-flight slot has at most one holder, and only a holder changes which round is
open: so a round is opened where none is, and closed or abandoned by who holds the slot
for it. The queue is served in order, so a barrier that is answered is the last one asked
for its round; an earlier one can only be that of a handler that was dropped.
-/

namespace Oqueue

namespace Rounds

/-- The round that members can enrol in. -/
def current (self : Rounds) : Option Nat :=
  self.openRound.bind fun round => if (self.outcomes round.id).isNone then some round.id else none

theorem current_eq_some {self : Rounds} {r : Nat} :
    self.current = some r ↔ ∃ round, self.IsOpen round ∧ round.id = r := by
  unfold current IsOpen
  constructor
  · intro h
    obtain ⟨round, opened, h⟩ := Option.bind_eq_some_iff.mp h
    split at h
    · rename_i unset
      exact ⟨round, ⟨opened, Option.isNone_iff_eq_none.mp unset⟩, Option.some.inj h⟩
    · cases h
  · intro h
    obtain ⟨round, ⟨opened, unset⟩, same⟩ := h
    rw [opened, Option.bind_some, unset, same]
    rfl

theorem IsOpen.current {self : Rounds} {round : OpenRound} (h : self.IsOpen round) :
    self.current = some round.id := current_eq_some.mpr ⟨round, h, rfl⟩

theorem current_eq_none {self : Rounds} : self.current = none ↔ self.needsOpen = true := by
  rw [← Bool.not_eq_false, needsOpen_eq_false, Option.eq_none_iff_forall_ne_some]
  constructor
  · intro nobody opened
    obtain ⟨round, opened⟩ := opened
    exact nobody _ opened.current
  · intro nobody r found
    obtain ⟨round, opened, -⟩ := current_eq_some.mp found
    exact nobody ⟨round, opened⟩

theorem outcome_of_current {self : Rounds} {r : Nat} (h : self.current = some r) :
    self.outcomes r = none := by
  obtain ⟨round, opened, rfl⟩ := current_eq_some.mp h
  exact opened.2

structure Numbered (rounds : Rounds) : Prop where
  current_lt : ∀ r, rounds.current = some r → r < rounds.installed
  settled_lt : ∀ r, (rounds.outcomes r).isSome → r < rounds.installed
  settled : ∀ r < rounds.installed, rounds.outcomes r = none → rounds.current = some r

theorem Numbered.unset {self : Rounds} (numbered : self.Numbered) :
    self.outcomes self.installed = none := by
  by_contra some_
  exact lt_irrefl _ (numbered.settled_lt _ (Option.isSome_iff_ne_none.mpr some_))

/-- How the current round changes: it stays, one is opened where none is, or it is settled. -/
inductive Turns (self : Rounds) : Rounds → Prop
  | stays {rounds : Rounds} : rounds.current = self.current → rounds.outcomes = self.outcomes →
      rounds.installed = self.installed → Turns self rounds
  | opens {rounds : Rounds} : self.current = none → rounds.current = some self.installed →
      rounds.outcomes = self.outcomes → rounds.installed = self.installed + 1 → Turns self rounds
  | settles {rounds : Rounds} {r : Nat} {outcome : Option RoundClose} : self.current = some r →
      rounds.current = none → rounds.outcomes = Function.update self.outcomes r (some outcome) →
      rounds.installed = self.installed → Turns self rounds

theorem Numbered.turn {self rounds : Rounds} (numbered : self.Numbered)
    (turned : self.Turns rounds) : rounds.Numbered := by
  cases turned with
  | stays current outcomes installed =>
    constructor
    · rw [current, installed]
      exact numbered.current_lt
    · rw [outcomes, installed]
      exact numbered.settled_lt
    · rw [current, outcomes, installed]
      exact numbered.settled
  | opens nobody current outcomes installed =>
    constructor
    · intro r h
      cases current.symm.trans h
      omega
    · intro r h
      rw [outcomes] at h
      have := numbered.settled_lt r h
      omega
    · intro r below unset
      rw [outcomes] at unset
      by_cases last : r = self.installed
      · rw [last, current]
      · cases nobody.symm.trans (numbered.settled r (by omega) unset)
  | settles found nobody outcomes installed =>
    rename_i r outcome
    constructor
    · intro r h
      cases nobody.symm.trans h
    · intro other h
      rw [installed]
      by_cases same : other = r
      · subst same
        exact numbered.current_lt _ found
      · rw [outcomes, Function.update_of_ne same] at h
        exact numbered.settled_lt _ h
    · intro other below unset
      rw [installed] at below
      by_cases same : other = r
      · rw [outcomes, same, Function.update_self] at unset
        cases unset
      · rw [outcomes, Function.update_of_ne same] at unset
        have same' := found.symm.trans (numbered.settled _ below unset)
        exact absurd (Option.some.inj same').symm same

theorem Turns.outcome {self rounds : Rounds} (turned : self.Turns rounds) {r : Nat}
    {outcome : Option RoundClose} (set_ : self.outcomes r = some outcome) :
    rounds.outcomes r = some outcome := by
  cases turned with
  | stays _ outcomes _ => rw [outcomes, set_]
  | opens _ _ outcomes _ => rw [outcomes, set_]
  | settles found nobody outcomes installed =>
    rename_i settled _
    have other : r ≠ settled := by
      intro same
      rw [same, outcome_of_current found] at set_
      cases set_
    rw [outcomes, Function.update_of_ne other, set_]

@[simp] theorem inFlight_setOutcome (self : Rounds) (round : Nat) (outcome : Option RoundClose) :
    (self.setOutcome round outcome).inFlight = self.inFlight := by
  unfold setOutcome
  split <;> rfl

@[simp] theorem openRound_setOutcome (self : Rounds) (round : Nat) (outcome : Option RoundClose) :
    (self.setOutcome round outcome).openRound = self.openRound := by
  unfold setOutcome
  split <;> rfl

@[simp] theorem lastRoundMembers_setOutcome (self : Rounds) (round : Nat)
    (outcome : Option RoundClose) :
    (self.setOutcome round outcome).lastRoundMembers = self.lastRoundMembers := by
  unfold setOutcome
  split <;> rfl

@[simp] theorem inherited_setOutcome (self : Rounds) (round : Nat) (outcome : Option RoundClose) :
    (self.setOutcome round outcome).inherited = self.inherited := by
  unfold setOutcome
  split <;> rfl

theorem inFlight_finalizeClose (self : Rounds) (generation : Int) :
    (self.finalizeClose generation).1.inFlight = self.inFlight := by
  unfold finalizeClose
  split
  · rfl
  · split
    · rfl
    · exact inFlight_setOutcome ..

theorem inFlight_abandonRound (self : Rounds) (forgetRoster : Bool) :
    (self.abandonRound forgetRoster).inFlight = self.inFlight := by
  unfold abandonRound
  split
  · rfl
  · cases forgetRoster <;> exact inFlight_setOutcome ..

theorem inFlight_withdraw (self : Rounds) (memberId : String) (own : Nat) :
    (self.withdraw memberId own).inFlight = self.inFlight := by
  unfold withdraw
  split
  · rfl
  · split <;> rfl

theorem current_joinedBy {self : Rounds} {round : OpenRound}
    (opened : self.openRound = some round) (member : RoundMember) :
    (self.joinedBy round member).current = self.current := by
  simp [current, joinedBy, opened]

theorem current_setAwaiting (self : Rounds) (awaiting : List String) :
    (self.setAwaiting awaiting).current = self.current := by
  unfold current setAwaiting
  cases self.openRound <;> rfl

theorem current_withdraw (self : Rounds) (memberId : String) (own : Nat) :
    (self.withdraw memberId own).current = self.current := by
  unfold withdraw
  split
  · rfl
  · rename_i round opened
    split
    · simp [current, opened]
    · rfl

theorem outcomes_withdraw (self : Rounds) (memberId : String) (own : Nat) :
    (self.withdraw memberId own).outcomes = self.outcomes := by
  unfold withdraw
  split
  · rfl
  · split <;> rfl

theorem installed_withdraw (self : Rounds) (memberId : String) (own : Nat) :
    (self.withdraw memberId own).installed = self.installed := by
  unfold withdraw
  split
  · rfl
  · split <;> rfl

theorem installRound_turns {self : Rounds} (numbered : self.Numbered) (nobody : self.current = none)
    (now timeout : Nat) : self.Turns (self.installRound now timeout) := by
  refine .opens nobody ?_ rfl rfl
  simp [current, installRound, numbered.unset]

theorem Turns.then_stays {self rounds later : Rounds} (turned : self.Turns rounds)
    (current : later.current = rounds.current) (outcomes : later.outcomes = rounds.outcomes)
    (installed : later.installed = rounds.installed) : self.Turns later := by
  cases turned with
  | stays current' outcomes' installed' =>
    exact .stays (current.trans current') (outcomes.trans outcomes') (installed.trans installed')
  | opens nobody current' outcomes' installed' =>
    exact .opens nobody (current.trans current') (outcomes.trans outcomes')
      (installed.trans installed')
  | settles found current' outcomes' installed' =>
    exact .settles found (current.trans current') (outcomes.trans outcomes')
      (installed.trans installed')

theorem Based.turns {self base : Rounds} {record : Option GroupRecord} {now timeout : Nat}
    (numbered : self.Numbered) (based : self.Based record now timeout base) : self.Turns base := by
  cases based with
  | same round isOpen => exact .stays rfl rfl rfl
  | installed needed free =>
    have turned : self.Turns (self.installRound now timeout) :=
      installRound_turns numbered (current_eq_none.mpr needed) now timeout
    exact turned.then_stays rfl rfl rfl

theorem Based.outcomes {self base : Rounds} {record : Option GroupRecord} {now timeout : Nat}
    (based : self.Based record now timeout base) : base.outcomes = self.outcomes := by
  cases based <;> rfl

theorem Based.inFlight {self base : Rounds} {record : Option GroupRecord} {now timeout : Nat}
    (based : self.Based record now timeout base) : base.inFlight = self.inFlight := by
  cases based with
  | same => rfl
  | installed needed free => exact free.symm

theorem Based.isOpen {self base : Rounds} {record : Option GroupRecord} {now timeout : Nat}
    {round : OpenRound} (numbered : self.Numbered) (based : self.Based record now timeout base)
    (opened : base.openRound = some round) : base.IsOpen round := by
  cases based with
  | same other isOpen =>
    cases isOpen.1.symm.trans opened
    exact isOpen
  | installed needed free =>
    refine ⟨opened, ?_⟩
    cases opened
    exact numbered.unset

@[simp] theorem generation_closeOf (members : List RoundMember) (previous : List String)
    (generation : Int) : (closeOf members previous generation).generation = generation := by
  unfold closeOf
  rfl

theorem outcomes_finalizeClose {self : Rounds} {round : OpenRound} (isOpen : self.IsOpen round)
    (generation : Int) : (self.finalizeClose generation).1.outcomes = Function.update self.outcomes
      round.id (some (some (closeOf round.members (self.lastRoundMembers.getD []) generation))) := by
  simp [finalizeClose, isOpen.1, isOpen.2, setOutcome]

theorem current_finalizeClose {self : Rounds} {round : OpenRound} (isOpen : self.IsOpen round)
    (generation : Int) : (self.finalizeClose generation).1.current = none := by
  rw [current_eq_none]
  simp [finalizeClose, isOpen.1, isOpen.2, setOutcome, needsOpen]

theorem finalizeClose_turns {self : Rounds} {round : OpenRound} (isOpen : self.IsOpen round)
    (generation : Int) : self.Turns (self.finalizeClose generation).1 := by
  refine .settles isOpen.current (current_finalizeClose isOpen generation)
    (outcomes_finalizeClose isOpen generation) ?_
  simp [finalizeClose, isOpen.1, isOpen.2, setOutcome]

theorem outcomes_abandonRound {self : Rounds} {r : Nat} (found : self.current = some r)
    (forgetRoster : Bool) :
    (self.abandonRound forgetRoster).outcomes = Function.update self.outcomes r (some none) := by
  obtain ⟨round, ⟨opened, unset⟩, rfl⟩ := current_eq_some.mp found
  cases forgetRoster <;> simp [abandonRound, opened, unset, setOutcome]

theorem abandonRound_turns {self : Rounds} {r : Nat} (found : self.current = some r)
    (forgetRoster : Bool) : self.Turns (self.abandonRound forgetRoster) := by
  refine .settles found ?_ (outcomes_abandonRound found forgetRoster) ?_
  all_goals obtain ⟨round, ⟨opened, unset⟩, rfl⟩ := current_eq_some.mp found
  · rw [current_eq_none]
    cases forgetRoster <;> simp [abandonRound, opened, unset, setOutcome, needsOpen]
  · cases forgetRoster <;> simp [abandonRound, opened, unset, setOutcome]

end Rounds

namespace JoinGroup

/-- Whoever holds the slot to open a round finds none open, and whoever holds it to close one
finds that one open until it has settled it. -/
def Place.Suits (rounds : Rounds) : Place → Prop
  | .opening _ _ _ _ => rounds.current = none
  | .closing purpose _ => rounds.current = some purpose.round
  | .persisting purpose close _ => rounds.outcomes purpose.round = some (some close)
  | .abandoned purpose => rounds.outcomes purpose.round = some none
  | _ => True

theorem Place.suits_of_free {place : Place} (rounds : Rounds) (free : place.holdsSlot = false) :
    place.Suits rounds := by
  cases place <;> trivial

theorem Place.Suits.turn {place : Place} {rounds later : Rounds} (suits : place.Suits rounds)
    (turned : rounds.Turns later) (current : later.current = rounds.current) :
    place.Suits later := by
  cases place <;> simp only [Suits] at suits ⊢
  · exact current.trans suits
  · exact current.trans suits
  · exact turned.outcome suits
  · exact turned.outcome suits

theorem replanned_free (waitingUntil left : Nat) :
    (Place.replanned waitingUntil left).holdsSlot = false := by
  cases left <;> rfl

theorem told_free (outcome : Option RoundClose) : (Place.told outcome).holdsSlot = false := by
  cases outcome <;> rfl

theorem tried_free (wait : Wait) (early : Bool) : (Place.tried wait early).holdsSlot = false := by
  cases early <;> rfl

theorem Leaves.holdsSlot {place place' : Place} (leaves : Leaves place place') :
    place.holdsSlot = true ∧ place'.holdsSlot = false := by
  cases leaves
  case opened => exact ⟨rfl, replanned_free _ _⟩
  case abandoned => exact ⟨rfl, replanned_free _ _⟩
  case persistTried => exact ⟨rfl, tried_free _ _⟩
  case abandonTried => exact ⟨rfl, tried_free _ _⟩
  all_goals exact ⟨rfl, rfl⟩

theorem Walk.holdsSlot {self : World} {place place' : Place} (walk : Walk self place place') :
    place'.holdsSlot = place.holdsSlot := by
  cases walk
  case replans => exact replanned_free _ _
  case hears => exact told_free _
  case checkHears => exact told_free _
  case lapseHears => exact told_free _
  case notMine => exact tried_free _ _
  case givesUp => exact tried_free _ _
  all_goals rfl

theorem Walk.suits {self : World} {place place' : Place} (walk : Walk self place place') :
    place'.Suits self.rounds := by
  by_cases opening : place'.holdsSlot = false
  · exact Place.suits_of_free _ opening
  · rw [walk.holdsSlot] at opening
    cases walk <;> trivial

theorem heard_holdsSlot (answer : Except Error GroupRecord) (place : Place) :
    (place.heard answer).holdsSlot = place.holdsSlot := by
  unfold Place.heard
  split <;> rfl

theorem heard_suits (answer : Except Error GroupRecord) {place : Place} {rounds : Rounds} :
    (place.heard answer).Suits rounds ↔ place.Suits rounds := by
  unfold Place.heard
  split <;> rfl

theorem stored_holdsSlot (lands : Bool) (place : Place) :
    (place.stored lands).holdsSlot = place.holdsSlot := by
  unfold Place.stored
  split <;> rfl

theorem stored_suits (lands : Bool) {place : Place} {rounds : Rounds} :
    (place.stored lands).Suits rounds ↔ place.Suits rounds := by
  unfold Place.stored
  split <;> rfl

inductive SlotUse (self : World) (handler : Handler) (effect : Effect) : Prop
  | keeps : effect.place.holdsSlot = handler.place.holdsSlot →
      effect.rounds.inFlight = self.rounds.inFlight → SlotUse self handler effect
  | claims : self.rounds.inFlight = none → effect.place.holdsSlot = true →
      effect.rounds.inFlight.isSome → SlotUse self handler effect
  | releases : handler.place.holdsSlot = true → effect.place.holdsSlot = false →
      effect.rounds.inFlight = none → SlotUse self handler effect

namespace Moves

variable {self : World} {id : Nat} {handler : Handler} {effect : Effect}

theorem slotUse (moved : Moves self id handler effect) (suits : handler.place.Suits self.rounds) :
    SlotUse self handler effect := by
  cases moved with
  | walks walk => exact .keeps walk.holdsSlot rfl
  | refuses at_ free based =>
    refine .keeps (at_ ▸ rfl) ?_
    rcases based with based | ⟨unclaimed, rfl⟩
    · exact based.inFlight
    · exact unclaimed.symm
  | opens at_ free needed unclaimed opening => exact .claims unclaimed rfl rfl
  | enrols at_ free based opened electable => exact .keeps (at_ ▸ rfl) based.inFlight
  | fills at_ free based opened unclaimed electable full =>
    exact .claims (based.inFlight.symm.trans unclaimed) rfl rfl
  | installs at_ free => exact .keeps (at_ ▸ rfl) rfl
  | leaves leaving free => exact .releases leaving.holdsSlot.1 leaving.holdsSlot.2 rfl
  | publishes at_ free isOpen =>
    exact .keeps (at_ ▸ rfl) (Rounds.inFlight_finalizeClose ..)
  | stale at_ needed =>
    rw [at_] at suits
    rw [← Rounds.current_eq_none] at needed
    cases needed.symm.trans suits
  | abandons at_ free => exact .keeps (at_ ▸ rfl) (Rounds.inFlight_abandonRound ..)
  | locks at_ free found => exact .keeps (at_ ▸ rfl) rfl
  | rosterDead at_ dead => exact .keeps (at_ ▸ rfl) rfl
  | rechecks at_ => exact .keeps (at_ ▸ rfl) rfl
  | claims at_ free isOpen same unclaimed => exact .claims unclaimed rfl rfl
  | withdraws at_ free => exact .keeps (at_ ▸ rfl) (Rounds.inFlight_withdraw ..)
  | registers at_ => exact .keeps (at_ ▸ rfl) rfl

/-- Rounds turn only by who holds the slot or finds it free. -/
theorem turns (moved : Moves self id handler effect) (suits : handler.place.Suits self.rounds)
    (numbered : self.rounds.Numbered) : self.rounds.Turns effect.rounds := by
  cases moved with
  | walks walk => exact .stays rfl rfl rfl
  | refuses at_ free based =>
    rcases based with based | ⟨unclaimed, rfl⟩
    · exact based.turns numbered
    · exact .stays rfl rfl rfl
  | opens at_ free needed unclaimed opening => exact .stays rfl rfl rfl
  | enrols at_ free based opened electable =>
    exact (based.turns numbered).then_stays (Rounds.current_joinedBy opened _) rfl rfl
  | fills at_ free based opened unclaimed electable full =>
    exact (based.turns numbered).then_stays (Rounds.current_joinedBy opened _) rfl rfl
  | installs at_ free =>
    rw [at_] at suits
    exact Rounds.installRound_turns numbered suits _ _
  | leaves leaving free => exact .stays rfl rfl rfl
  | publishes at_ free isOpen => exact Rounds.finalizeClose_turns isOpen _
  | stale at_ needed => exact .stays rfl rfl rfl
  | abandons at_ free =>
    rw [at_] at suits
    exact Rounds.abandonRound_turns suits _
  | locks at_ free found => exact .stays rfl rfl rfl
  | rosterDead at_ dead => exact .stays (Rounds.current_setAwaiting ..) rfl rfl
  | rechecks at_ => exact .stays (Rounds.current_setAwaiting ..) rfl rfl
  | claims at_ free isOpen same unclaimed => exact .stays rfl rfl rfl
  | withdraws at_ free =>
    exact .stays (Rounds.current_withdraw ..) (Rounds.outcomes_withdraw ..)
      (Rounds.installed_withdraw ..)
  | registers at_ => exact .stays rfl rfl rfl

/-- Where the handler gets to fits the rounds again. -/
theorem suits (moved : Moves self id handler effect) (suits : handler.place.Suits self.rounds)
    (numbered : self.rounds.Numbered) : effect.place.Suits effect.rounds := by
  cases moved with
  | walks walk => exact walk.suits
  | refuses => trivial
  | opens at_ free needed unclaimed opening => exact Rounds.current_eq_none.mpr needed
  | enrols => trivial
  | fills at_ free based opened unclaimed electable full =>
    exact (Rounds.current_joinedBy opened handler.member).trans
      (based.isOpen numbered opened).current
  | installs => trivial
  | leaves leaving free => exact Place.suits_of_free _ leaving.holdsSlot.2
  | publishes at_ free isOpen =>
    rw [at_] at suits
    have same := Option.some.inj (isOpen.current.symm.trans suits)
    simp only [Place.Suits, World.still]
    rw [← same, Rounds.outcomes_finalizeClose isOpen, Function.update_self]
  | stale at_ needed =>
    rw [at_] at suits
    rw [← Rounds.current_eq_none] at needed
    cases needed.symm.trans suits
  | abandons at_ free =>
    rw [at_] at suits
    simp only [Place.Suits, World.still]
    rw [Rounds.outcomes_abandonRound suits, Function.update_self]
  | locks => trivial
  | rosterDead => trivial
  | rechecks => trivial
  | claims at_ free isOpen same unclaimed =>
    exact isOpen.current.trans (congrArg some same)
  | withdraws => trivial
  | registers => trivial

/-- A round is opened where none is, by who holds the slot or finds it free, and is settled
by who was answered for its barrier. -/
theorem current_cases (moved : Moves self id handler effect)
    (suits : handler.place.Suits self.rounds) :
    effect.rounds.current = self.rounds.current ∨
    (self.rounds.current = none ∧ (handler.place.holdsSlot = true ∨ self.rounds.inFlight = none)) ∨
    ∃ purpose answer, handler.place = .closing purpose (some answer) := by
  have based {base : Rounds}
      (based : self.rounds.Based self.record self.now handler.member.rebalanceTimeout base) :
      base.current = self.rounds.current ∨
      self.rounds.current = none ∧ self.rounds.inFlight = none := by
    cases based with
    | same round isOpen => exact .inl rfl
    | installed needed free => exact .inr ⟨Rounds.current_eq_none.mpr needed, free⟩
  cases moved with
  | walks walk => exact .inl rfl
  | refuses at_ free planned =>
    rcases planned with planned | ⟨unclaimed, rfl⟩
    · rcases based planned with same | ⟨nobody, unclaimed⟩
      · exact .inl same
      · exact .inr (.inl ⟨nobody, .inr unclaimed⟩)
    · exact .inl rfl
  | opens => exact .inl rfl
  | enrols at_ free planned opened electable =>
    rcases based planned with same | ⟨nobody, unclaimed⟩
    · exact .inl ((Rounds.current_joinedBy opened _).trans same)
    · exact .inr (.inl ⟨nobody, .inr unclaimed⟩)
  | fills at_ free planned opened unclaimed electable full =>
    rcases based planned with same | ⟨nobody, unclaimed⟩
    · exact .inl ((Rounds.current_joinedBy opened _).trans same)
    · exact .inr (.inl ⟨nobody, .inr unclaimed⟩)
  | installs at_ free =>
    rw [at_] at suits
    exact .inr (.inl ⟨suits, .inl (by rw [at_]; rfl)⟩)
  | leaves => exact .inl rfl
  | publishes at_ => exact .inr (.inr ⟨_, _, at_⟩)
  | stale => exact .inl rfl
  | abandons at_ => exact .inr (.inr ⟨_, _, at_⟩)
  | locks => exact .inl rfl
  | rosterDead => exact .inl (Rounds.current_setAwaiting ..)
  | rechecks => exact .inl (Rounds.current_setAwaiting ..)
  | claims => exact .inl rfl
  | withdraws => exact .inl (Rounds.current_withdraw ..)
  | registers => exact .inl rfl

theorem current (moved : Moves self id handler effect) (suits : handler.place.Suits self.rounds)
    (other : handler.place.holdsSlot = false) (held : self.rounds.inFlight ≠ none) :
    effect.rounds.current = self.rounds.current := by
  rcases moved.current_cases suits with same | ⟨-, holds | free⟩ | ⟨purpose, answer, at_⟩
  · exact same
  · rw [other] at holds
    cases holds
  · exact absurd free held
  · rw [at_] at other
    cases other

end Moves

namespace World

def Holds (self : World) (id : Nat) : Prop :=
  ∃ handler, self.handlers id = some handler ∧ handler.place.holdsSlot = true

def IsDropped (self : World) (id : Nat) : Prop :=
  ∃ handler, self.handlers id = some handler ∧ handler.place = .dropped

structure SlotSound (world : World) : Prop where
  unique : ∀ a b, world.Holds a → world.Holds b → a = b
  held : world.rounds.inFlight.isSome ↔ ∃ id, world.Holds id
  suits : ∀ id handler, world.handlers id = some handler → handler.place.Suits world.rounds
  numbered : world.rounds.Numbered

variable {self next : World} {action : Action} {id : Nat} {handler : Handler} {effect : Effect}

theorem handlers_after_self : (self.after id handler effect).handlers id =
    some { handler with place := effect.place, enrolled := effect.enrolled } :=
  Function.update_self ..

theorem handlers_after_of_ne {other : Nat} (ne : other ≠ id) :
    (self.after id handler effect).handlers other = self.handlers other :=
  Function.update_of_ne ne ..

theorem handlers_arrived (new : self.handlers id = none) {other : Nat} {handler' : Handler}
    (found : self.handlers other = some handler') :
    Function.update self.handlers id (some handler) other = some handler' := by
  rw [← found]
  refine Function.update_of_ne ?_ ..
  intro same
  rw [same, new] at found
  cases found

theorem holds_after_self : (self.after id handler effect).Holds id ↔
    effect.place.holdsSlot = true := by
  simp [Holds, handlers_after_self]

theorem holds_after_of_ne {other : Nat} (ne : other ≠ id) :
    (self.after id handler effect).Holds other ↔ self.Holds other := by
  simp [Holds, handlers_after_of_ne ne]

theorem holds_found (found : self.handlers id = some handler) :
    self.Holds id ↔ handler.place.holdsSlot = true := by
  simp [Holds, found]

namespace SlotSound

theorem free_of_none (sound : self.SlotSound) (none_ : self.rounds.inFlight = none) (id : Nat) :
    ¬ self.Holds id := by
  intro holds
  have := sound.held.mpr ⟨id, holds⟩
  rw [none_] at this
  cases this

/-- A step that uses the slot as it may keeps it with one holder at most. -/
theorem after_unique (sound : self.SlotSound) (found : self.handlers id = some handler)
    (use_ : SlotUse self handler effect) :
    (∀ a b, (self.after id handler effect).Holds a → (self.after id handler effect).Holds b →
      a = b) ∧ (effect.rounds.inFlight.isSome ↔ ∃ a, (self.after id handler effect).Holds a) := by
  cases use_ with
  | keeps place slot =>
    have same (a : Nat) : (self.after id handler effect).Holds a ↔ self.Holds a := by
      by_cases eq : a = id
      · subst eq
        rw [holds_after_self, holds_found found, place]
      · exact holds_after_of_ne eq
    simp only [same, slot]
    exact ⟨sound.unique, sound.held⟩
  | claims none_ place slot =>
    have only (a : Nat) : (self.after id handler effect).Holds a ↔ a = id := by
      by_cases eq : a = id
      · subst eq
        simp [holds_after_self, place]
      · simp [holds_after_of_ne eq, sound.free_of_none none_ a, eq]
    simp only [only]
    refine ⟨fun a b ha hb => ha.trans hb.symm, ?_⟩
    exact ⟨fun _ => ⟨id, rfl⟩, fun _ => slot⟩
  | releases held place slot =>
    have nobody (a : Nat) : ¬ (self.after id handler effect).Holds a := by
      by_cases eq : a = id
      · subst eq
        simp [holds_after_self, place]
      · rw [holds_after_of_ne eq]
        intro holds
        exact eq (sound.unique a id holds ((holds_found found).mpr held))
    simp [nobody, slot]

theorem after (sound : self.SlotSound) (found : self.handlers id = some handler)
    (use_ : SlotUse self handler effect) (turned : self.rounds.Turns effect.rounds)
    (suits : effect.place.Suits effect.rounds)
    (current : handler.place.holdsSlot = false → self.rounds.inFlight ≠ none →
      effect.rounds.current = self.rounds.current) :
    (self.after id handler effect).SlotSound where
  unique := (sound.after_unique found use_).1
  held := (sound.after_unique found use_).2
  numbered := sound.numbered.turn turned
  suits := by
    intro other handler' found'
    by_cases same : other = id
    · subst same
      cases handlers_after_self.symm.trans found'
      exact suits
    · rw [handlers_after_of_ne same] at found'
      by_cases free : handler'.place.holdsSlot = false
      · exact Place.suits_of_free _ free
      · have holds : self.Holds other := (holds_found found').mpr (by simpa using free)
        refine (sound.suits other handler' found').turn turned (current ?_ ?_)
        · by_contra both
          exact same (sound.unique other id holds ((holds_found found).mpr (by simpa using both)))
        · have held := sound.held.mpr ⟨other, holds⟩
          exact Option.isSome_iff_ne_none.mp held

theorem hearing (sound : self.SlotSound) {replyTo : Option Nat} {change : Place → Place}
    (handlers : next.handlers = JoinGroup.hearing self.handlers replyTo change)
    (rounds : next.rounds = self.rounds)
    (holds : ∀ place, (change place).holdsSlot = place.holdsSlot)
    (suits : ∀ place, (change place).Suits self.rounds ↔ place.Suits self.rounds) :
    next.SlotSound := by
  have same (a : Nat) : next.Holds a ↔ self.Holds a := by
    unfold Holds
    rw [handlers]
    unfold JoinGroup.hearing
    cases self.handlers a with
    | none => simp
    | some handler =>
      by_cases told : replyTo = some a <;> simp [told, holds]
  refine ⟨?_, ?_, ?_, rounds ▸ sound.numbered⟩
  · simpa only [same] using sound.unique
  · simpa only [same, rounds] using sound.held
  · intro id handler found
    rw [handlers] at found
    obtain ⟨before, found_before, rfl⟩ := Option.map_eq_some_iff.mp found
    have before_suits := sound.suits id before found_before
    rw [rounds]
    split
    · exact (suits _).mpr before_suits
    · exact before_suits

theorem of_eq (sound : self.SlotSound) (handlers : next.handlers = self.handlers)
    (rounds : next.rounds = self.rounds) : next.SlotSound := by
  have unheard : next.handlers = JoinGroup.hearing self.handlers none id := by
    rw [handlers]
    exact (hearing_unchanged (by simp)).symm
  exact sound.hearing unheard rounds (fun _ => rfl) (fun _ => Iff.rfl)

theorem step (sound : self.SlotSound) (stepped : Stepped self action next) : next.SlotSound := by
  cases stepped with
  | ticks => exact sound.of_eq rfl rfl
  | arrives new unenrolled place acted =>
    rename_i id minted handler
    have free : handler.place.holdsSlot = false := by
      rcases place with ⟨_, _, at_⟩ | ⟨_, at_⟩ <;> rw [at_] <;> rfl
    have same (a : Nat) :
        World.Holds { self with
          minted, handlers := Function.update self.handlers id (some handler) } a ↔
        self.Holds a := by
      unfold Holds
      by_cases eq : a = id
      · subst eq
        simp [new, free]
      · simp [Function.update_of_ne eq]
    refine ⟨?_, ?_, ?_, sound.numbered⟩
    · simpa only [same] using sound.unique
    · simpa only [same] using sound.held
    · intro other handler' found
      dsimp only at found
      by_cases eq : other = id
      · subst eq
        rw [Function.update_self] at found
        cases found
        exact Place.suits_of_free _ free
      · rw [Function.update_of_ne eq] at found
        exact sound.suits other handler' found
  | moves found moved =>
    have suits := sound.suits _ _ found
    exact sound.after found (moved.slotUse suits) (moved.turns suits sound.numbered)
      (moved.suits suits sound.numbered) (moved.current suits)
  | drops found awaits free =>
    rw [goTo_eq]
    exact sound.after found (.keeps free.symm rfl) (.stays rfl rfl rfl) trivial fun _ _ => rfl
  | dropsHolder found awaits holds free =>
    rw [releaseSlot_goTo]
    exact sound.after found (.releases holds rfl rfl) (.stays rfl rfl rfl) trivial fun _ _ => rfl
  | accepts first taken =>
    exact sound.hearing rfl rfl (heard_holdsSlot _) fun _ => heard_suits _
  | rejects first => exact sound.hearing rfl rfl (heard_holdsSlot _) fun _ => heard_suits _
  | stores first => exact sound.hearing rfl rfl (stored_holdsSlot _) fun _ => stored_suits _
  | foreign none_ => exact sound.of_eq rfl rfl

theorem init : World.SlotSound {} where
  unique := by
    intro a b holds
    obtain ⟨handler, found, -⟩ := holds
    cases found
  held := by simp [Holds]
  suits := by
    intro id handler found
    cases found
  numbered := ⟨by simp [Rounds.current], by simp, by simp⟩

end SlotSound

theorem Stepped.outcome (sound : self.SlotSound) (stepped : Stepped self action next) {r : Nat}
    {outcome : Option RoundClose} (set_ : self.rounds.outcomes r = some outcome) :
    next.rounds.outcomes r = some outcome := by
  cases stepped with
  | moves found moved =>
    exact (moved.turns (sound.suits _ _ found) sound.numbered).outcome set_
  | _ => exact set_

end World

end JoinGroup

end Oqueue
