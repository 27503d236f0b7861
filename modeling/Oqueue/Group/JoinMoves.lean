import Oqueue.Group.Join

/-!
# What a step of a join can do

Each step of the world is one handler's move, the answer to one request, or something
that happens to the sessions. A move is given by what it changes: the handler's place
and the round it is enrolled in, the rounds, what it asks the coordinator for, the
sessions and the lock.
-/

namespace Oqueue

namespace Rounds

/-- The rounds once a free slot is claimed. -/
def claimed (self : Rounds) : Rounds :=
  { self with inFlight := some self.claims, claims := self.claims + 1 }

/-- The rounds once a member is enrolled in the open one. -/
def joinedBy (self : Rounds) (round : OpenRound) (member : RoundMember) : Rounds :=
  { self with openRound := some { round with
      members := enrolled round.members member
      awaiting := round.awaiting.map (·.filter (· ≠ member.memberId)) } }

theorem claimOrWait_free {self : Rounds} (free : self.inFlight = none) :
    self.claimOrWait = (self.claimed, none) := by
  unfold claimOrWait
  rw [free]
  rfl

theorem claimOrWait_held {self : Rounds} {slot : Nat} (held : self.inFlight = some slot) :
    self.claimOrWait = (self, some slot) := by
  unfold claimOrWait
  rw [held]

def IsOpen (self : Rounds) (round : OpenRound) : Prop :=
  self.openRound = some round ∧ self.outcomes round.id = none

theorem needsOpen_eq_false {self : Rounds} :
    self.needsOpen = false ↔ ∃ round, self.IsOpen round := by
  unfold needsOpen IsOpen
  cases self.openRound with
  | none => simp
  | some round => cases settled : self.outcomes round.id <;> simp [settled]

theorem isOwnOpenRound_iff {self : Rounds} {round own : Nat} :
    self.isOwnOpenRound round own = true ↔ round = own ∧ self.outcomes round = none := by
  simp [isOwnOpenRound]

/-- What a join is planned on: the open round, or one that is installed on the spot for a
group that prepares a rebalance already. -/
inductive Based (self : Rounds) (record : Option GroupRecord) (now timeout : Nat) : Rounds → Prop
  | same (round : OpenRound) : self.IsOpen round → Based self record now timeout self
  | installed : self.needsOpen = true → self.inFlight = none →
      Based self record now timeout (self.claimed.installRound now timeout).release

theorem planOpen_cases (self : Rounds) (record : Option GroupRecord) (now timeout : Nat) :
    (∃ slot, self.inFlight = some slot ∧
      self.planOpen record now timeout = (self, some (.wait slot))) ∨
    self.inFlight = none ∧
      ((∃ event, openingEvent record = .ok (some event) ∧
        self.planOpen record now timeout = (self.claimed, some (.openWith event))) ∨
      self.planOpen record now timeout =
        ((self.claimed.installRound now timeout).release, none) ∨
      self.planOpen record now timeout = (self.claimed.release, some (.finished .refused))) := by
  unfold planOpen
  rcases Option.eq_none_or_eq_some self.inFlight with free | ⟨slot, held⟩
  · rw [claimOrWait_free free]
    refine .inr ⟨free, ?_⟩
    rcases opening : openingEvent record with refused | event
    · exact .inr (.inr rfl)
    · rcases event with none | event
      · exact .inr (.inl rfl)
      · exact .inl ⟨event, rfl, rfl⟩
  · rw [claimOrWait_held held]
    exact .inl ⟨slot, held, rfl⟩

theorem enrol_cases (self : Rounds) (member : RoundMember) :
    self.enrol member = (self, .finished .refused) ∨
    ∃ round, self.openRound = some round ∧
      (elect (asCandidates (Oqueue.enrolled round.members member))).isSome ∧
      (self.enrol member = (self.joinedBy round member,
          .finished (.pending round.id round.deadline)) ∨
        self.inFlight = none ∧
        round.awaiting.map (·.filter (· ≠ member.memberId)) = some [] ∧
        self.enrol member = ((self.joinedBy round member).claimed, .close round.id)) := by
  unfold enrol
  cases opened : self.openRound with
  | none => exact .inl rfl
  | some round =>
    dsimp only
    split
    · exact .inl rfl
    · rename_i electable
      refine .inr ⟨round, rfl, by simpa [Option.isSome_iff_ne_none] using electable, ?_⟩
      split
      · rename_i full
        rcases Option.eq_none_or_eq_some (self.joinedBy round member).inFlight with
          free | ⟨slot, held⟩
        · refine .inr ⟨free, full, ?_⟩
          have taken := claimOrWait_free free
          unfold joinedBy at taken ⊢
          rw [taken]
        · refine .inl ?_
          have waits := claimOrWait_held held
          unfold joinedBy at waits ⊢
          rw [waits]
      · exact .inl rfl

/-- A join waits for the slot, opens a round, is refused, or enrols in an open round. -/
theorem planJoin_cases (self : Rounds) (record : Option GroupRecord) (now : Nat)
    (member : RoundMember) :
    (∃ slot, self.inFlight = some slot ∧ self.planJoin record now member = (self, .wait slot)) ∨
    (∃ event, self.needsOpen = true ∧ self.inFlight = none ∧
      openingEvent record = .ok (some event) ∧
      self.planJoin record now member = (self.claimed, .openWith event)) ∨
    (self.inFlight = none ∧
      self.planJoin record now member = (self.claimed.release, .finished .refused)) ∨
    ∃ base, self.Based record now member.rebalanceTimeout base ∧
      self.planJoin record now member = base.enrol member := by
  unfold planJoin
  cases needed : self.needsOpen with
  | false =>
    obtain ⟨round, isOpen⟩ := needsOpen_eq_false.mp needed
    exact .inr (.inr (.inr ⟨self, .same round isOpen, rfl⟩))
  | true =>
    rcases self.planOpen_cases record now member.rebalanceTimeout with
      ⟨slot, held, planned⟩ | ⟨free, ⟨event, opening, planned⟩ | planned | planned⟩
    all_goals rw [if_pos rfl, planned]
    · exact .inl ⟨slot, held, rfl⟩
    · exact .inr (.inl ⟨event, rfl, free, opening, rfl⟩)
    · exact .inr (.inr (.inr ⟨_, .installed needed free, rfl⟩))
    · exact .inr (.inr (.inl ⟨free, rfl⟩))

theorem deadlineClaim_cases (self : Rounds) (own : Nat) :
    self.deadlineClaim own = (self, .notMine) ∨
    (∃ slot, self.outcomes own = none ∧ self.deadlineClaim own = (self, .wait slot)) ∨
    ∃ round, self.IsOpen round ∧ round.id = own ∧ self.inFlight = none ∧
      self.deadlineClaim own = (self.claimed, .claimed) := by
  unfold deadlineClaim
  cases opened : self.openRound with
  | none => exact .inl rfl
  | some round =>
    dsimp only
    split
    · rename_i isOwn
      obtain ⟨same, unset⟩ := isOwnOpenRound_iff.mp isOwn
      rcases Option.eq_none_or_eq_some self.inFlight with free | ⟨slot, held⟩
      · rw [claimOrWait_free free]
        exact .inr (.inr ⟨round, ⟨opened, unset⟩, same, free, rfl⟩)
      · rw [claimOrWait_held held]
        exact .inr (.inl ⟨slot, same ▸ unset, rfl⟩)
    · exact .inl rfl

/-- A barrier that was answered closes the open round, or finds that none is. -/
theorem finalizeClose_cases (self : Rounds) (generation : Int) :
    (∃ round, self.IsOpen round ∧ (self.finalizeClose generation).2 =
      some (closeOf round.members (self.lastRoundMembers.getD []) generation)) ∨
    self.needsOpen = true ∧ (self.finalizeClose generation).1 = self := by
  cases needed : self.needsOpen with
  | false =>
    obtain ⟨round, opened, unset⟩ := needsOpen_eq_false.mp needed
    refine .inl ⟨round, ⟨opened, unset⟩, ?_⟩
    simp [finalizeClose, opened, unset]
  | true =>
    refine .inr ⟨rfl, ?_⟩
    unfold finalizeClose
    cases opened : self.openRound with
    | none => rfl
    | some round =>
      dsimp only
      split
      · rfl
      · rename_i unset
        rw [needsOpen_eq_false.mpr ⟨round, opened, unset⟩] at needed
        cases needed

end Rounds

namespace JoinGroup

def Place.replanned (waitingUntil : Nat) : Nat → Place
  | 0 => .answered (.refused Refusal.rebalanceInProgress.errorCode)
  | left + 1 => .planning left waitingUntil

def Place.told : Option RoundClose → Place
  | some close => .registering close
  | none => .answered (.refused Refusal.rebalanceInProgress.errorCode)

def Place.tried (wait : Wait) (early : Bool) : Place :=
  if early then .checking wait wait.deadline else .lapsed wait

def Place.unavailable : Place := .answered (.refused Refusal.coordinatorNotAvailable.errorCode)

def Place.heard (answer : Except Error GroupRecord) : Place → Place
  | .opening left waitingUntil event none => .opening left waitingUntil event (some answer)
  | .closing purpose none => .closing purpose (some answer)
  | place => place

/-- An answered roster. -/
def Place.stored (lands : Bool) : Place → Place
  | .persisting purpose close none => .persisting purpose close (some lands)
  | place => place

def hearing (handlers : Nat → Option Handler) (replyTo : Option Nat) (change : Place → Place) :
    Nat → Option Handler := fun id => (handlers id).map fun handler =>
  if replyTo = some id then { handler with place := change handler.place } else handler

theorem hearing_found {handlers : Nat → Option Handler} {id : Nat} {handler : Handler}
    (change : Place → Place) (found : handlers id = some handler) :
    hearing handlers (some id) change =
      Function.update handlers id (some { handler with place := change handler.place }) := by
  funext other
  unfold hearing
  by_cases same : other = id
  · subst same
    simp [found]
  · simp [Function.update_of_ne same, Ne.symm same]

theorem hearing_unchanged {handlers : Nat → Option Handler} {replyTo : Option Nat}
    {change : Place → Place} (unchanged : ∀ id handler, replyTo = some id →
      handlers id = some handler → change handler.place = handler.place) :
    hearing handlers replyTo change = handlers := by
  funext id
  unfold hearing
  cases found : handlers id with
  | none => rfl
  | some handler =>
    simp only [Option.map_some]
    split
    · rename_i same
      rw [unchanged id handler same found]
    · rfl

/-- What a handler's step leads to. -/
structure Effect where
  place : Place
  enrolled : Option Nat
  rounds : Rounds
  asked : List Request
  sessions : Sessions
  lock : Option Nat

namespace World

def after (self : World) (id : Nat) (handler : Handler) (effect : Effect) : World :=
  { self with
    queue := self.queue ++ effect.asked
    sessions := effect.sessions
    rounds := effect.rounds
    lock := effect.lock
    handlers := Function.update self.handlers id (some { handler with
      place := effect.place, enrolled := effect.enrolled }) }

/-- The effect of a step that changes the handler's place at most. -/
def still (self : World) (handler : Handler) (place : Place) : Effect :=
  ⟨place, handler.enrolled, self.rounds, [], self.sessions, self.lock⟩

end World

/-- Steps that change nothing but the handler's place. -/
inductive Walk (self : World) : Place → Place → Prop
  | waits {left waitingUntil slot : Nat} : self.rounds.inFlight = some slot →
      Walk self (.planning left waitingUntil) (.slotWaiting left waitingUntil slot)
  | replans {left waitingUntil slot : Nat} :
      Walk self (.slotWaiting left waitingUntil slot) (.replanned waitingUntil left)
  | notOpened {left waitingUntil : Nat} {event : GroupEvent} {refusal : Error}
      {unavailable : Bool} :
      Walk self (.opening left waitingUntil event (some (.error refusal)))
        (.opened left waitingUntil unavailable)
  | hears {wait : Wait} {outcome : Option RoundClose} :
      self.rounds.outcomes wait.round = some outcome → Walk self (.looking wait) (.told outcome)
  | looks {wait : Wait} :
      self.rounds.outcomes wait.round = none → Walk self (.looking wait) (.repruning wait)
  | unpruned {wait : Wait} : self.rounds.awaited wait.round = none →
      Walk self (.repruning wait) (.checking wait wait.deadline)
  | keeps {wait : Wait} {kept rest : List String} {memberId : String} :
      self.sessions.isLive self.now memberId = true →
      Walk self (.pruning wait kept (memberId :: rest)) (.pruning wait (kept ++ [memberId]) rest)
  | strikes {wait : Wait} {kept rest : List String} {memberId : String} :
      self.sessions.isLive self.now memberId = false →
      Walk self (.pruning wait kept (memberId :: rest)) (.pruning wait kept rest)
  | notMine {wait : Wait} {early : Bool} {left waitingUntil : Nat} :
      Walk self (.claiming wait early left waitingUntil) (.tried wait early)
  | claimWaits {wait : Wait} {early : Bool} {left waitingUntil slot : Nat} :
      self.rounds.outcomes wait.round = none →
      Walk self (.claiming wait early left waitingUntil)
        (.claimWaiting wait early left waitingUntil slot)
  | givesUp {wait : Wait} {early : Bool} {left waitingUntil slot : Nat} :
      Walk self (.claimWaiting wait early left waitingUntil slot) (.tried wait early)
  | retries {wait : Wait} {early : Bool} {left waitingUntil slot : Nat} :
      Walk self (.claimWaiting wait early (left + 1) waitingUntil slot)
        (.claiming wait early left waitingUntil)
  | checkHears {wait : Wait} {nextCheck : Nat} {outcome : Option RoundClose} :
      self.rounds.outcomes wait.round = some outcome →
      Walk self (.checking wait nextCheck) (.told outcome)
  | parks {wait : Wait} {nextCheck : Nat} :
      self.rounds.outcomes wait.round = none →
      Walk self (.checking wait nextCheck) (.parked wait nextCheck)
  | wakes {wait : Wait} {nextCheck : Nat} : Walk self (.parked wait nextCheck) (.looking wait)
  | expires {wait : Wait} {nextCheck left waitingUntil : Nat} : wait.deadline ≤ self.now →
      Walk self (.parked wait nextCheck) (.claiming wait false left waitingUntil)
  | lapseHears {wait : Wait} {outcome : Option RoundClose} :
      self.rounds.outcomes wait.round = some outcome → Walk self (.lapsed wait) (.told outcome)
  | lapses {wait : Wait} :
      self.rounds.outcomes wait.round = none → Walk self (.lapsed wait) (.withdrawing wait)
  | triesAgain {wait : Wait} :
      self.rounds.outcomes wait.round = none →
      Walk self (.lapsed wait) (.looking { wait with tried := true })

/-- The places at which a holder drops its guard, and where it goes on to. -/
inductive Leaves : Place → Place → Prop
  | opened {left waitingUntil : Nat} :
      Leaves (.opened left waitingUntil false) (.replanned waitingUntil left)
  | openFailed {left waitingUntil : Nat} : Leaves (.opened left waitingUntil true) .unavailable
  | persisted {left waitingUntil round : Nat} {close : RoundClose} :
      Leaves (.persisting (.joining left waitingUntil round) close (some true)) (.registering close)
  | lost {left waitingUntil round : Nat} {close : RoundClose} :
      Leaves (.persisting (.joining left waitingUntil round) close (some false)) .unavailable
  | persistTried {wait : Wait} {early : Bool} {close : RoundClose} {kept : Bool} :
      Leaves (.persisting (.waiting wait early) close (some kept)) (.tried wait early)
  | abandoned {left waitingUntil round : Nat} :
      Leaves (.abandoned (.joining left waitingUntil round)) (.replanned waitingUntil left)
  | abandonTried {wait : Wait} {early : Bool} :
      Leaves (.abandoned (.waiting wait early)) (.tried wait early)

inductive Moves (self : World) (id : Nat) (handler : Handler) : Effect → Prop
  | walks {place : Place} : Walk self handler.place place →
      Moves self id handler (self.still handler place)
  | refuses {left waitingUntil : Nat} {rounds : Rounds} :
      handler.place = .planning left waitingUntil → self.lock = none →
      (self.rounds.Based self.record self.now handler.member.rebalanceTimeout rounds ∨
        self.rounds.inFlight = none ∧ rounds = self.rounds.claimed.release) →
      Moves self id handler { self.still handler
        (.answered (.refused inconsistentGroupProtocol)) with rounds }
  | opens {left waitingUntil : Nat} {event : GroupEvent} :
      handler.place = .planning left waitingUntil → self.lock = none →
      self.rounds.needsOpen = true → self.rounds.inFlight = none →
      openingEvent self.record = .ok (some event) →
      Moves self id handler { self.still handler (.opening left waitingUntil event none) with
        rounds := self.rounds.claimed
        asked := [.transition event (some id) none] }
  | enrols {left waitingUntil : Nat} {base : Rounds} {round : OpenRound} :
      handler.place = .planning left waitingUntil → self.lock = none →
      self.rounds.Based self.record self.now handler.member.rebalanceTimeout base →
      base.openRound = some round →
      (elect (asCandidates (enrolled round.members handler.member))).isSome →
      Moves self id handler { self.still handler (.looking ⟨round.id, round.deadline, false⟩) with
        enrolled := some round.id
        rounds := base.joinedBy round handler.member }
  | fills {left waitingUntil : Nat} {base : Rounds} {round : OpenRound} :
      handler.place = .planning left waitingUntil → self.lock = none →
      self.rounds.Based self.record self.now handler.member.rebalanceTimeout base →
      base.openRound = some round → base.inFlight = none →
      (elect (asCandidates (enrolled round.members handler.member))).isSome →
      round.awaiting.map (·.filter (· ≠ handler.member.memberId)) = some [] →
      Moves self id handler
        { self.still handler (.closing (.joining left waitingUntil round.id) none) with
          enrolled := some round.id
          rounds := (base.joinedBy round handler.member).claimed
          asked := [.transition .joinBarrierComplete (some id) (some round.id)] }
  | installs {left waitingUntil : Nat} {event : GroupEvent} {record : GroupRecord} :
      handler.place = .opening left waitingUntil event (some (.ok record)) → self.lock = none →
      Moves self id handler { self.still handler (.opened left waitingUntil false) with
        rounds := self.rounds.installRound self.now handler.member.rebalanceTimeout }
  | leaves {place : Place} : Leaves handler.place place → self.lock = none →
      Moves self id handler { self.still handler place with rounds := self.rounds.release }
  | publishes {purpose : Purpose} {record : GroupRecord} {round : OpenRound} :
      handler.place = .closing purpose (some (.ok record)) → self.lock = none →
      self.rounds.IsOpen round →
      Moves self id handler
        { self.still handler (.persisting purpose (Rounds.closeOf round.members
            (self.rounds.lastRoundMembers.getD []) record.generation) none) with
          rounds := (self.rounds.finalizeClose record.generation).1
          asked := [.roster (rosterSnapshot (Rounds.closeOf round.members
            (self.rounds.lastRoundMembers.getD []) record.generation)) id] }
  | stale {purpose : Purpose} {record : GroupRecord} {place : Place} {asked : List Request} :
      handler.place = .closing purpose (some (.ok record)) → self.rounds.needsOpen = true →
      Moves self id handler { self.still handler place with asked }
  | abandons {purpose : Purpose} {refusal : Error} {forgetRoster : Bool} :
      handler.place = .closing purpose (some (.error refusal)) → self.lock = none →
      Moves self id handler { self.still handler (.abandoned purpose) with
        rounds := self.rounds.abandonRound forgetRoster }
  | locks {wait : Wait} {awaiting : List String} :
      handler.place = .repruning wait → self.lock = none →
      self.rounds.awaited wait.round = some awaiting →
      Moves self id handler { self.still handler (.pruning wait [] awaiting) with lock := some id }
  | rosterDead {wait : Wait} {kept : List String} {left waitingUntil : Nat} :
      handler.place = .pruning wait kept [] →
      self.sessions.latestDeadline kept = none →
      Moves self id handler { self.still handler (.claiming wait true left waitingUntil) with
        rounds := self.rounds.setAwaiting kept
        lock := none }
  | rechecks {wait : Wait} {kept : List String} {nextCheck : Nat} :
      handler.place = .pruning wait kept [] →
      Moves self id handler { self.still handler (.checking wait nextCheck) with
        rounds := self.rounds.setAwaiting kept
        lock := none }
  | claims {wait : Wait} {early : Bool} {left waitingUntil : Nat} {round : OpenRound} :
      handler.place = .claiming wait early left waitingUntil → self.lock = none →
      self.rounds.IsOpen round → round.id = wait.round → self.rounds.inFlight = none →
      Moves self id handler { self.still handler (.closing (.waiting wait early) none) with
        rounds := self.rounds.claimed
        asked := [.transition .joinBarrierComplete (some id) (some wait.round)] }
  | withdraws {wait : Wait} :
      handler.place = .withdrawing wait → self.lock = none →
      Moves self id handler
        { self.still handler (.answered (.refused Refusal.rebalanceInProgress.errorCode)) with
          enrolled := if (self.rounds.outcomes wait.round).isNone then none else handler.enrolled
          rounds := self.rounds.withdraw handler.member.memberId wait.round }
  | registers {close : RoundClose} :
      handler.place = .registering close →
      Moves self id handler { self.still handler (.answered (.success close)) with
        sessions := self.sessions.register self.now handler.member.memberId
          handler.sessionTimeoutMs }

/-- What the requests of others ask for: no barrier, and no answer. -/
def Request.isForeign : Request → Prop
  | .transition _ replyTo round => replyTo = none ∧ round = none
  | .roster _ _ => False

def barrierOf (replyTo round : Option Nat) (record : GroupRecord) : List Barrier :=
  match round, replyTo with
  | some round, some holder => [⟨round, holder, record.generation⟩]
  | _, _ => []

/-- The handler that a request starts. -/
def Action.arrival : Action → Option Nat
  | .arrive id _ _ _ _ _ _ => some id
  | _ => none

inductive Stepped (self : World) (action : Action) : World → Prop
  | ticks {now : Nat} : self.now ≤ now → Stepped self action { self with now }
  | arrives {id minted : Nat} {handler : Handler} : self.handlers id = none →
      handler.enrolled = none →
      ((∃ left waitingUntil, handler.place = .planning left waitingUntil) ∨
        ∃ errorCode, handler.place = .answered (.refused errorCode)) →
      action.arrival = some id → Stepped self action { self with
        minted, handlers := Function.update self.handlers id (some handler) }
  | moves {id : Nat} {handler : Handler} {effect : Effect} : self.handlers id = some handler →
      Moves self id handler effect →
      (action = .advance id ∨ ∃ wait nextCheck, handler.place = .parked wait nextCheck) →
      Stepped self action (self.after id handler effect)
  | drops {id : Nat} {handler : Handler} : self.handlers id = some handler →
      handler.place.awaits = true → handler.place.holdsSlot = false → action = .drop id →
      Stepped self action (self.goTo id handler .dropped)
  | dropsHolder {id : Nat} {handler : Handler} : self.handlers id = some handler →
      handler.place.awaits = true → handler.place.holdsSlot = true → self.lock = none →
      action = .drop id → Stepped self action (self.releaseSlot.goTo id handler .dropped)
  | accepts {event : GroupEvent} {replyTo round : Option Nat} {queue : List Request}
      {record : GroupRecord} {roster : Option GroupRosterSnapshot} :
      self.queue = .transition event replyTo round :: queue →
      (self.record.getD .fresh).transition event = .ok record →
      Stepped self action { self with
        record := some record, roster, queue
        barriers := self.barriers ++ barrierOf replyTo round record
        handlers := hearing self.handlers replyTo (.heard (.ok record)) }
  | rejects {event : GroupEvent} {replyTo round : Option Nat} {queue : List Request}
      {refusal : Error} : self.queue = .transition event replyTo round :: queue →
      Stepped self action { self with
        queue, handlers := hearing self.handlers replyTo (.heard (.error refusal)) }
  | stores {snapshot : GroupRosterSnapshot} {replyTo : Nat} {queue : List Request}
      {roster : Option GroupRosterSnapshot} {lands : Bool} :
      self.queue = .roster snapshot replyTo :: queue → action = .serve lands →
      Stepped self action { self with
        roster, queue, handlers := hearing self.handlers (some replyTo) (.stored lands) }
  | foreign {sessions : Sessions} {asked : List Request} :
      (∀ request ∈ asked, request.isForeign) →
      Stepped self action { self with sessions, queue := self.queue ++ asked }

namespace World

variable {self next : World} {action : Action} {id : Nat} {handler : Handler}

theorem locked_eq_some {step : World} (h : self.locked step = some next) :
    self.lock = none ∧ step = next := by
  unfold locked at h
  split at h
  · rename_i free
    exact ⟨Option.isNone_iff_eq_none.mp free, Option.some.inj h⟩
  · cases h

theorem goTo_eq (place : Place) :
    self.goTo id handler place = self.after id handler (self.still handler place) := by
  simp [goTo, setHandler, after, still]

theorem releaseSlot_goTo (place : Place) : self.releaseSlot.goTo id handler place =
    self.after id handler { self.still handler place with rounds := self.rounds.release } := by
  simp [goTo, setHandler, after, still, releaseSlot]

theorem replan_eq (waitingUntil left : Nat) :
    self.replan id handler waitingUntil left = self.goTo id handler (.replanned waitingUntil left) := by
  cases left <;> rfl

theorem published_eq (outcome : Option RoundClose) :
    self.published id handler outcome = self.goTo id handler (.told outcome) := by
  cases outcome <;> rfl

theorem closeTried_eq (wait : Wait) (early : Bool) :
    self.closeTried id handler wait early = self.goTo id handler (.tried wait early) := by
  cases early <;> rfl

theorem walk_moves {place place' : Place} (at_ : handler.place = place)
    (walk : Walk self place place') : ∃ effect, Moves self id handler effect ∧
      self.goTo id handler place' = self.after id handler effect :=
  ⟨_, .walks (at_ ▸ walk), goTo_eq _⟩

theorem plan_moves (left waitingUntil : Nat) (at_ : handler.place = .planning left waitingUntil)
    (free : self.lock = none) : ∃ effect, Moves self id handler effect ∧
      self.plan id handler left waitingUntil = self.after id handler effect := by
  unfold plan
  rcases self.rounds.planJoin_cases self.record self.now handler.member with
    ⟨slot, held, planned⟩ | ⟨event, needed, unclaimed, opening, planned⟩ | ⟨unclaimed, planned⟩ |
      ⟨base, based, planned⟩
  · rw [planned]
    exact walk_moves at_ (.waits held)
  · rw [planned]
    exact ⟨_, .opens at_ free needed unclaimed opening, rfl⟩
  · rw [planned]
    refine ⟨_, .refuses at_ free (.inr ⟨unclaimed, rfl⟩), ?_⟩
    simp [joined, goTo, setHandler, after, still]
  · rw [planned]
    rcases base.enrol_cases handler.member with refused | ⟨round, opened, electable, went⟩
    · rw [refused]
      refine ⟨_, .refuses at_ free (.inl based), ?_⟩
      simp [joined, goTo, setHandler, after, still]
    · rcases went with went | ⟨unclaimed, full, went⟩
      · rw [went]
        refine ⟨_, .enrols at_ free based opened electable, ?_⟩
        simp [joined, goTo, setHandler, after, still]
      · rw [went]
        exact ⟨_, .fills at_ free based opened unclaimed electable full, rfl⟩

theorem open_moves {left waitingUntil : Nat} {event : GroupEvent} {answer : Except Error GroupRecord}
    (at_ : handler.place = .opening left waitingUntil event (some answer)) (free : self.lock = none) :
    ∃ effect, Moves self id handler effect ∧
      self.open_ id handler left waitingUntil answer = self.after id handler effect := by
  unfold open_
  split
  · refine ⟨_, .installs at_ free, ?_⟩
    simp [goTo, setHandler, after, still]
  all_goals exact walk_moves at_ .notOpened

theorem settle_error (rounds : Rounds) (refusal : Error) :
    ∃ forgetRoster, settle rounds (.error refusal) = (rounds.abandonRound forgetRoster, none) := by
  unfold settle
  split
  · rename_i impossible
    cases impossible
  · exact ⟨true, rfl⟩
  · exact ⟨false, rfl⟩

theorem close_moves {purpose : Purpose} {answer : Except Error GroupRecord}
    (at_ : handler.place = .closing purpose (some answer)) (free : self.lock = none) :
    ∃ effect, Moves self id handler effect ∧
      self.close id handler purpose answer = self.after id handler effect := by
  unfold close
  cases answer with
  | ok record =>
    dsimp only [settle]
    rcases self.rounds.finalizeClose_cases record.generation with ⟨round, isOpen, closed⟩ |
      ⟨needed, same⟩
    · rw [closed]
      exact ⟨_, .publishes at_ free isOpen, rfl⟩
    · rw [same]
      split
      · exact ⟨_, .stale at_ needed, rfl⟩
      · exact ⟨self.still handler (.abandoned purpose), .stale at_ needed, goTo_eq _⟩
  | error refusal =>
    obtain ⟨forgetRoster, settled⟩ := settle_error self.rounds refusal
    rw [settled]
    refine ⟨{ self.still handler (.abandoned purpose) with
      rounds := self.rounds.abandonRound forgetRoster }, .abandons at_ free, ?_⟩
    simp [goTo, setHandler, after, still]

theorem leave_moves {place : Place} (at_ : Leaves handler.place place) (free : self.lock = none) :
    ∃ effect, Moves self id handler effect ∧
      self.releaseSlot.goTo id handler place = self.after id handler effect := by
  exact ⟨_, .leaves at_ free, releaseSlot_goTo place⟩

theorem closed_moves {result : Option (RoundClose × Bool)} {purpose : Purpose}
    (at_ : match result with
      | none => handler.place = .abandoned purpose
      | some (close, kept) => handler.place = .persisting purpose close (some kept))
    (free : self.lock = none) : ∃ effect, Moves self id handler effect ∧
      self.closed id handler result purpose = self.after id handler effect := by
  unfold closed
  rcases purpose with ⟨left, waitingUntil, round⟩ | ⟨wait, early⟩
  · rcases result with none | ⟨close, kept | kept⟩
    · dsimp only
      rw [replan_eq]
      exact leave_moves (at_ ▸ .abandoned) free
    · exact leave_moves (at_ ▸ .lost) free
    · exact leave_moves (at_ ▸ .persisted) free
  · dsimp only
    rw [closeTried_eq]
    rcases result with none | ⟨close, kept⟩
    · exact leave_moves (at_ ▸ .abandonTried) free
    · exact leave_moves (at_ ▸ .persistTried) free

theorem claim_moves {wait : Wait} {early : Bool} {left waitingUntil : Nat}
    (at_ : handler.place = .claiming wait early left waitingUntil) (free : self.lock = none) :
    ∃ effect, Moves self id handler effect ∧
      self.claim id handler wait early left waitingUntil = self.after id handler effect := by
  unfold claim
  rcases self.rounds.deadlineClaim_cases wait.round with claimed | ⟨slot, unset, claimed⟩ |
    ⟨round, isOpen, same, unclaimed, claimed⟩
  · rw [claimed]
    dsimp only
    rw [closeTried_eq]
    exact walk_moves at_ .notMine
  · rw [claimed]
    exact walk_moves at_ (.claimWaits unset)
  · rw [claimed]
    exact ⟨_, .claims at_ free isOpen same unclaimed, rfl⟩

theorem repruned_moves {wait : Wait} {kept : List String}
    (at_ : handler.place = .pruning wait kept []) : ∃ effect, Moves self id handler effect ∧
      self.repruned id handler wait kept = self.after id handler effect := by
  unfold repruned
  split
  · rename_i dead
    refine ⟨{ self.still handler (.claiming wait true (maxJoinReplans - 1) (self.now + slotWait))
      with rounds := self.rounds.setAwaiting kept, lock := none }, .rosterDead at_ dead, ?_⟩
    simp [goTo, setHandler, after, still]
  · rename_i upcoming _
    refine ⟨{ self.still handler (.checking wait (min upcoming wait.deadline))
      with rounds := self.rounds.setAwaiting kept, lock := none }, .rechecks at_, ?_⟩
    simp [goTo, setHandler, after, still]

/-- Every step of a handler is one of its moves. -/
theorem advance_moves (h : self.advance id handler = some next) :
    ∃ effect, Moves self id handler effect ∧ next = self.after id handler effect := by
  have walks {place place' : Place} (at_ : handler.place = place) (walk : Walk self place place')
      (h : self.goTo id handler place' = next) :
      ∃ effect, Moves self id handler effect ∧ next = self.after id handler effect :=
    h ▸ walk_moves at_ walk
  unfold advance at h
  split at h
  case h_1 left waitingUntil at_ =>
    obtain ⟨free, rfl⟩ := locked_eq_some h
    exact plan_moves left waitingUntil at_ free
  case h_2 left waitingUntil slot at_ =>
    split at h
    · rw [replan_eq] at h
      exact walks at_ .replans (Option.some.inj h)
    · cases h
  case h_3 left waitingUntil event answer at_ =>
    obtain ⟨answer, rfl, h⟩ := Option.bind_eq_some_iff.mp h
    obtain ⟨free, rfl⟩ := locked_eq_some h
    exact open_moves at_ free
  case h_4 left waitingUntil unavailable at_ =>
    obtain ⟨free, h⟩ := locked_eq_some h
    rw [← h]
    cases unavailable with
    | true => exact leave_moves (at_ ▸ .openFailed) free
    | false =>
      rw [if_neg (by decide), replan_eq]
      exact leave_moves (at_ ▸ .opened) free
  case h_5 purpose answer at_ =>
    obtain ⟨answer, rfl, h⟩ := Option.bind_eq_some_iff.mp h
    obtain ⟨free, rfl⟩ := locked_eq_some h
    exact close_moves at_ free
  case h_6 purpose close answer at_ =>
    obtain ⟨kept, rfl, h⟩ := Option.bind_eq_some_iff.mp h
    obtain ⟨free, rfl⟩ := locked_eq_some h
    exact closed_moves at_ free
  case h_7 purpose at_ =>
    obtain ⟨free, rfl⟩ := locked_eq_some h
    exact closed_moves at_ free
  case h_8 wait at_ =>
    split at h
    · rename_i outcome settled
      rw [published_eq] at h
      exact walks at_ (.hears settled) (Option.some.inj h)
    · rename_i unset
      exact walks at_ (.looks unset) (Option.some.inj h)
  case h_9 wait at_ =>
    obtain ⟨free, h⟩ := locked_eq_some h
    split at h
    · rename_i nobody
      exact walks at_ (.unpruned nobody) h
    · rename_i awaiting found
      refine ⟨_, .locks at_ free found, ?_⟩
      rw [← h]
      simp [goTo, setHandler, after, still]
  case h_10 wait kept at_ =>
    cases h
    exact repruned_moves at_
  case h_11 wait kept memberId rest at_ =>
    split at h
    · rename_i live
      exact walks at_ (.keeps live) (Option.some.inj h)
    · rename_i dead
      exact walks at_ (.strikes (Bool.eq_false_iff.mpr dead)) (Option.some.inj h)
  case h_12 wait early left waitingUntil at_ =>
    obtain ⟨free, rfl⟩ := locked_eq_some h
    exact claim_moves at_ free
  case h_13 wait early left waitingUntil slot at_ =>
    split at h
    · split at h
      · rw [closeTried_eq] at h
        exact walks at_ .givesUp (Option.some.inj h)
      · exact walks at_ .retries (Option.some.inj h)
    · split at h
      · rw [closeTried_eq] at h
        exact walks at_ .givesUp (Option.some.inj h)
      · cases h
  case h_14 wait nextCheck at_ =>
    split at h
    · rename_i outcome settled
      rw [published_eq] at h
      exact walks at_ (.checkHears settled) (Option.some.inj h)
    · rename_i unset
      exact walks at_ (.parks unset) (Option.some.inj h)
  case h_15 wait nextCheck at_ =>
    split at h
    · cases h
    · split at h
      · exact walks at_ .wakes (Option.some.inj h)
      · rename_i due
        exact walks at_ (.expires (Nat.le_of_not_lt due)) (Option.some.inj h)
  case h_16 wait at_ =>
    split at h
    · rename_i outcome settled
      rw [published_eq] at h
      exact walks at_ (.lapseHears settled) (Option.some.inj h)
    · rename_i unset
      split at h
      · exact walks at_ (.lapses unset) (Option.some.inj h)
      · exact walks at_ (.triesAgain unset) (Option.some.inj h)
  case h_17 wait at_ =>
    obtain ⟨free, rfl⟩ := locked_eq_some h
    refine ⟨_, .withdraws at_ free, ?_⟩
    simp [goTo, setHandler, after, still]
  case h_18 close at_ =>
    cases h
    refine ⟨_, .registers at_, ?_⟩
    simp only [goTo, setHandler, after, still, List.append_nil]
  all_goals cases h

theorem deliver_eq (replyTo : Option Nat) (answer : Except Error GroupRecord) :
    self.deliver replyTo answer =
      { self with handlers := hearing self.handlers replyTo (.heard answer) } := by
  unfold deliver
  split
  · rw [hearing_unchanged]
    intro id handler same
    cases same
  · rename_i id
    split
    · rename_i nobody
      rw [hearing_unchanged]
      intro other handler same found
      cases same
      rw [nobody] at found
      cases found
    · rename_i handler found
      rw [hearing_found _ found]
      split
      · rename_i at_
        rw [at_]
        rfl
      · rename_i at_
        rw [at_]
        rfl
      · rename_i notOpening notClosing
        rw [← hearing_found _ found, hearing_unchanged]
        intro other handler' same found'
        cases same
        cases found.symm.trans found'
        unfold Place.heard
        split
        · rename_i at_
          exact absurd at_ (notOpening _ _ _)
        · rename_i at_
          exact absurd at_ (notClosing _)
        · rfl

theorem serve_stepped {request : Request} {queue : List Request} (lands : Bool)
    (first : self.queue = request :: queue) :
    Stepped self (.serve lands) (({ self with queue } : World).serve request lands) := by
  unfold serve
  cases request with
  | transition event replyTo round =>
    dsimp only
    split
    · rw [deliver_eq]
      exact .rejects first
    · rename_i record taken
      cases lands with
      | false =>
        rw [if_neg (by decide), deliver_eq]
        exact .rejects first
      | true =>
        rw [if_pos rfl, deliver_eq]
        rcases round with none | round
        · have accepted {roster} := @Stepped.accepts self (.serve true) _ _ _ _ _ roster first taken
          simpa [barrierOf] using accepted
        · rcases replyTo with none | holder
          · have accepted {roster} := @Stepped.accepts self (.serve true) _ _ _ _ _ roster first taken
            simpa [barrierOf] using accepted
          · exact .accepts first taken
  | roster snapshot replyTo =>
    have stored {roster} (unchanged : ∀ handler, self.handlers replyTo = some handler →
        handler.place.stored lands = handler.place) :
        Stepped self (.serve lands) { self with roster, queue } := by
      have same : hearing self.handlers (some replyTo) (.stored lands) = self.handlers := by
        refine hearing_unchanged fun id handler at_ found => ?_
        cases at_
        exact unchanged handler found
      have stored {roster} := @Stepped.stores self _ _ _ _ roster lands first rfl
      rw [same] at stored
      exact stored
    have kept : (if lands = true then { self with queue, roster := some snapshot }
        else { self with queue } : World) = { self with
          queue, roster := if lands then some snapshot else self.roster } := by
      cases lands <;> rfl
    dsimp only
    rw [kept]
    split
    · rename_i handler found
      split
      · rename_i at_
        have accepted {roster} := @Stepped.stores self _ _ _ _ roster lands first rfl
        rw [hearing_found _ found, at_] at accepted
        exact accepted
      · rename_i notAwaited
        refine stored fun other found' => ?_
        cases found.symm.trans found'
        unfold Place.stored
        split
        · rename_i at_
          exact absurd at_ (notAwaited _ _)
        · rfl
    · rename_i nobody
      refine stored fun other found => ?_
      cases nobody.symm.trans found

theorem remove_stepped (keep : String → MemberSession → Bool) :
    Stepped self action (self.remove keep) := by
  unfold remove
  split
  · have removed {sessions} := @Stepped.foreign self action sessions [] (by simp)
    simpa using removed
  · exact .foreign (by simp [Request.isForeign])

theorem arrive_stepped {id : Nat} (new : self.handlers id = none) (requested : Option String)
    (protocolType : String) (protocols : List (String × List UInt8))
    (rebalanceTimeoutMs sessionTimeoutMs : Int) (loadInProgress : Bool)
    (acted : action.arrival = some id) : Stepped self action (self.arrive id requested protocolType protocols rebalanceTimeoutMs
      sessionTimeoutMs loadInProgress) := by
  unfold arrive
  dsimp only
  split
  · exact .arrives new rfl (.inl ⟨_, _, rfl⟩) acted
  · split
    · exact .arrives new rfl (.inr ⟨_, rfl⟩) acted
    · exact .arrives new rfl (.inl ⟨_, _, rfl⟩) acted

/-- Every step of the world is a move, an answer, or something that happens to it. -/
theorem step_stepped (h : self.step action = some next) : Stepped self action next := by
  cases action with
  | tick now =>
    simp only [step] at h
    split at h
    · rename_i later
      cases h
      exact .ticks later
    · cases h
  | arrive id requested protocolType protocols rebalanceTimeoutMs sessionTimeoutMs
      loadInProgress =>
    simp only [step] at h
    split at h
    · cases h
    · rename_i new
      cases h
      exact arrive_stepped (by simpa using new) _ _ _ _ _ _ rfl
  | advance id =>
    simp only [step, Option.bind_eq_bind] at h
    obtain ⟨handler, found, h⟩ := Option.bind_eq_some_iff.mp h
    obtain ⟨effect, moved, rfl⟩ := advance_moves h
    exact .moves found moved (.inl rfl)
  | notified id =>
    simp only [step, Option.bind_eq_bind] at h
    obtain ⟨handler, found, h⟩ := Option.bind_eq_some_iff.mp h
    split at h
    · rename_i wait nextCheck at_
      split at h
      · cases h
        have wakes : Walk self handler.place (.looking wait) := at_ ▸ .wakes
        rw [goTo_eq]
        exact .moves found (.walks wakes) (.inr ⟨wait, nextCheck, at_⟩)
      · cases h
    · cases h
  | drop id =>
    simp only [step, Option.bind_eq_bind] at h
    obtain ⟨handler, found, h⟩ := Option.bind_eq_some_iff.mp h
    split at h
    · rename_i awaits
      split at h
      · rename_i holds
        obtain ⟨free, rfl⟩ := locked_eq_some h
        exact .dropsHolder found awaits holds free rfl
      · rename_i holdsNot
        cases h
        exact .drops found awaits (Bool.eq_false_iff.mpr holdsNot) rfl
    · cases h
  | serve lands =>
    simp only [step] at h
    split at h
    · cases h
    · rename_i request queue first
      cases h
      exact serve_stepped lands first
  | renew memberId =>
    cases h
    have renewed {sessions} := @Stepped.foreign self (.renew memberId) sessions [] (by simp)
    simpa using renewed
  | sweep =>
    cases h
    exact remove_stepped _
  | leave memberIds =>
    cases h
    exact remove_stepped _
  | syncComplete =>
    cases h
    exact @Stepped.foreign self _ self.sessions _ (by simp [Request.isForeign])

end World

end JoinGroup

end Oqueue
