import Oqueue.Library.Steps
import Oqueue.Group.Rounds

/-!
# `JoinGroup` handlers of one group

Any number of handlers share the rounds' mutex, the transitions actor's queue and the
members' sessions. A handler is cut wherever it takes the mutex, reads an outcome cell or
awaits: between two cuts it runs alone. It may be dropped at any await, and what it has
enqueued is served all the same. A handler's number is never used again.
-/

namespace Oqueue

namespace JoinGroup

structure MemberSession where
  deadline : Nat
  sessionTimeoutMs : Int
  deriving DecidableEq, Repr

abbrev Sessions := List (String × MemberSession)

def clampSessionTimeoutMs (requested : Int) : Nat := (max 6000 (min requested 1800000)).toNat

namespace Sessions

def register (self : Sessions) (now : Nat) (memberId : String) (sessionTimeoutMs : Int) : Sessions :=
  self.filter (·.1 ≠ memberId) ++
    [(memberId, ⟨now + clampSessionTimeoutMs sessionTimeoutMs, sessionTimeoutMs⟩)]

def renew (self : Sessions) (now : Nat) (memberId : String) : Sessions :=
  self.map fun (id, session) => if id = memberId then
      (id, { session with deadline := now + clampSessionTimeoutMs session.sessionTimeoutMs })
    else (id, session)

def isTracked (self : Sessions) (memberId : String) : Bool := (self.lookup memberId).isSome

def isLive (self : Sessions) (now : Nat) (memberId : String) : Bool :=
  (self.lookup memberId).any fun session => decide (now < session.deadline)

/-- The last moment at which any of these members could still be live. -/
def latestDeadline (self : Sessions) (memberIds : List String) : Option Nat :=
  (memberIds.filterMap fun id => (self.lookup id).map MemberSession.deadline).max?

/-- What is left, and the event to enqueue if anything is gone. -/
def removeWhere (self : Sessions) (keep : String → MemberSession → Bool) :
    Sessions × Option GroupEvent :=
  let kept := self.filter fun (id, session) => keep id session
  if kept.length = self.length then (self, none)
  else (kept, some (if kept.isEmpty then .allMembersGone else .memberLeft))

end Sessions

inductive JoinAnswer where
  | success (close : RoundClose)
  | refused (errorCode : Int)
  deriving DecidableEq, Repr

def inconsistentGroupProtocol : Int := 23

/-- The round a handler waits for, and whether it has tried the deadline already. -/
structure Wait where
  round : Nat
  deadline : Nat
  tried : Bool := false
  deriving DecidableEq, Repr

/-- Why a handler closes a round: it filled it, or it waits for it and every awaited
member is dead (`early`) or the deadline has passed. -/
inductive Purpose where
  | joining (left waitingUntil round : Nat)
  | waiting (wait : Wait) (early : Bool)
  deriving DecidableEq, Repr

def Purpose.round : Purpose → Nat
  | .joining _ _ round => round
  | .waiting wait _ => wait.round

/-- Where a handler stands. An awaited answer is kept from when it is sent. -/
inductive Place where
  -- `plan_and_join`
  | planning (left waitingUntil : Nat)
  | slotWaiting (left waitingUntil slot : Nat)
  | opening (left waitingUntil : Nat) (event : GroupEvent)
    (answer : Option (Except Error GroupRecord))
  | opened (left waitingUntil : Nat) (unavailable : Bool)
  -- `apply_close` and `finish_deadline_close`
  | closing (purpose : Purpose) (answer : Option (Except Error GroupRecord))
  | persisting (purpose : Purpose) (close : RoundClose) (answer : Option Bool)
  | abandoned (purpose : Purpose)
  -- `wait_for_close`
  | looking (wait : Wait)
  | repruning (wait : Wait)
  | pruning (wait : Wait) (kept rest : List String)
  | claiming (wait : Wait) (early : Bool) (left waitingUntil : Nat)
  | claimWaiting (wait : Wait) (early : Bool) (left waitingUntil slot : Nat)
  | checking (wait : Wait) (nextCheck : Nat)
  | parked (wait : Wait) (nextCheck : Nat)
  | lapsed (wait : Wait)
  | withdrawing (wait : Wait)
  -- `handle`
  | registering (close : RoundClose)
  | answered (answer : JoinAnswer)
  | dropped
  deriving DecidableEq

/-- The places between a claim of the slot and the drop of its guard. -/
def Place.holdsSlot : Place → Bool
  | .opening _ _ _ _ | .opened _ _ _ | .closing _ _ | .persisting _ _ _ | .abandoned _ => true
  | _ => false

/-- The places a handler may be dropped at. -/
def Place.awaits : Place → Bool
  | .slotWaiting _ _ _ | .opening _ _ _ _ | .closing _ _ | .persisting _ _ _
  | .claimWaiting _ _ _ _ _ | .parked _ _ => true
  | _ => false

/-- A handler, with the round it is enrolled in kept for the proofs. -/
structure Handler where
  member : RoundMember
  sessionTimeoutMs : Int
  place : Place
  enrolled : Option Nat := none

/-- A request in the transitions actor's queue. A barrier carries its round for the proofs. -/
inductive Request where
  | transition (event : GroupEvent) (replyTo : Option Nat) (round : Option Nat)
  | roster (roster : GroupRosterSnapshot) (replyTo : Nat)
  deriving DecidableEq

def rosterSnapshot (close : RoundClose) : GroupRosterSnapshot :=
  ⟨close.protocolType, close.protocolName, memberIds close.members⟩

/-- A barrier the coordinator took: for which round, by whom, and what it led to. -/
structure Barrier where
  round : Nat
  holder : Nat
  generation : Int
  deriving DecidableEq, Repr

structure World where
  now : Nat := 0
  record : Option GroupRecord := none
  roster : Option GroupRosterSnapshot := none
  queue : List Request := []
  sessions : Sessions := []
  rounds : Rounds := {}
  /-- Who is in the middle of a critical section. -/
  lock : Option Nat := none
  handlers : Nat → Option Handler := fun _ => none
  minted : Nat := 0
  /-- Every barrier the coordinator took for a round, oldest first. -/
  barriers : List Barrier := []

inductive Action where
  | tick (now : Nat)
  /-- A request arrives, with no member id if it is the member's first. -/
  | arrive (id : Nat) (memberId : Option String) (protocolType : String)
    (protocols : List (String × List UInt8)) (rebalanceTimeoutMs sessionTimeoutMs : Int)
    (loadInProgress : Bool)
  | advance (id : Nat)
  /-- A parked handler hears that its round has an outcome. -/
  | notified (id : Nat)
  | drop (id : Nat)
  /-- The actor serves its next request, and the append lands or does not. -/
  | serve (lands : Bool)
  | renew (memberId : String)
  | sweep
  | leave (memberIds : List String)
  /-- A `SyncGroup` handler enqueues its transition. -/
  | syncComplete

def barrierMs (rebalanceTimeoutMs : Int) : Nat := (max 0 (min rebalanceTimeoutMs 3000000)).toNat

def effectiveTimeoutMs (rebalanceTimeoutMs sessionTimeoutMs : Int) : Int :=
  if 0 < rebalanceTimeoutMs then rebalanceTimeoutMs else sessionTimeoutMs

namespace World

def setHandler (self : World) (id : Nat) (handler : Handler) : World :=
  { self with handlers := Function.update self.handlers id (some handler) }

def goTo (self : World) (id : Nat) (handler : Handler) (place : Place) : World :=
  self.setHandler id { handler with place }

def ask (self : World) (request : Request) : World :=
  { self with queue := self.queue ++ [request] }

/-- `handle`, up to the join. -/
def arrive (self : World) (id : Nat) (requested : Option String) (protocolType : String)
    (protocols : List (String × List UInt8)) (rebalanceTimeoutMs sessionTimeoutMs : Int)
    (loadInProgress : Bool) : World :=
  let rebalanceTimeout := barrierMs (effectiveTimeoutMs rebalanceTimeoutMs sessionTimeoutMs)
  let begin (self : World) (memberId : String) (place : Place) : World :=
    self.setHandler id
      { member := ⟨memberId, protocolType, protocols, rebalanceTimeout⟩, sessionTimeoutMs, place }
  let planning := Place.planning (maxJoinReplans - 1) (self.now + slotWait)
  match requested with
  | none => begin { self with minted := self.minted + 1 } (toString "member-" ++ toString self.minted)
      planning
  | some memberId =>
    match fence { loadInProgress, memberTracked := self.sessions.isTracked memberId
                  record := self.record, generationId := none, acceptableStates := none } with
    | .error refused => begin self memberId (.answered (.refused refused.errorCode))
    | .ok () => begin self memberId planning

def joined (self : World) (id : Nat) (handler : Handler) : JoinOutcome → World
  | .unavailable =>
    self.goTo id handler (.answered (.refused Refusal.coordinatorNotAvailable.errorCode))
  | .busy => self.goTo id handler (.answered (.refused Refusal.rebalanceInProgress.errorCode))
  | .refused => self.goTo id handler (.answered (.refused inconsistentGroupProtocol))
  | .ready close => self.goTo id handler (.registering close)
  | .pending round deadline =>
    self.goTo id { handler with enrolled := some round } (.looking ⟨round, deadline, false⟩)

/-- The next pass of `plan_and_join`, if one is left. -/
def replan (self : World) (id : Nat) (handler : Handler) (waitingUntil : Nat) : Nat → World
  | 0 => self.joined id handler .busy
  | left + 1 => self.goTo id handler (.planning left waitingUntil)

def plan (self : World) (id : Nat) (handler : Handler) (left waitingUntil : Nat) : World :=
  let (rounds, step) := self.rounds.planJoin self.record self.now handler.member
  let planned : World := { self with rounds }
  match step with
  | .wait slot => planned.goTo id handler (.slotWaiting left waitingUntil slot)
  | .openWith event => (planned.ask (.transition event (some id) none)).goTo id handler
      (.opening left waitingUntil event none)
  | .close round =>
    (planned.ask (.transition .joinBarrierComplete (some id) (some round))).goTo id
      { handler with enrolled := some round } (.closing (.joining left waitingUntil round) none)
  | .finished outcome => planned.joined id handler outcome

/-- `apply_open`, once the transition is answered. -/
def open_ (self : World) (id : Nat) (handler : Handler) (left waitingUntil : Nat) :
    Except Error GroupRecord → World
  | .ok _ =>
    let rounds := self.rounds.installRound self.now handler.member.rebalanceTimeout
    { self with rounds }.goTo id handler (.opened left waitingUntil false)
  | .error (.illegalGroupTransition _ _) => self.goTo id handler (.opened left waitingUntil false)
  | .error _ => self.goTo id handler (.opened left waitingUntil true)

def releaseSlot (self : World) : World := { self with rounds := self.rounds.release }

/-- The published close, or the abandonment, of the round a handler waits for. -/
def published (self : World) (id : Nat) (handler : Handler) : Option RoundClose → World
  | some close => self.goTo id handler (.registering close)
  | none => self.goTo id handler (.answered (.refused Refusal.rebalanceInProgress.errorCode))

/-- `close_on_deadline` returns to whichever of its callers it was. -/
def closeTried (self : World) (id : Nat) (handler : Handler) (wait : Wait) (early : Bool) : World :=
  if early then self.goTo id handler (.checking wait wait.deadline)
  else self.goTo id handler (.lapsed wait)

/-- The barrier is answered: the round is published, or destroyed. -/
def settle (rounds : Rounds) : Except Error GroupRecord → Rounds × Option RoundClose
  | .ok record => rounds.finalizeClose record.generation
  | .error (.illegalGroupTransition _ _) => (rounds.abandonRound true, none)
  | .error _ => (rounds.abandonRound false, none)

def close (self : World) (id : Nat) (handler : Handler) (purpose : Purpose)
    (answer : Except Error GroupRecord) : World :=
  let (rounds, closed) := settle self.rounds answer
  let settled : World := { self with rounds }
  match closed with
  | some close => (settled.ask (.roster (rosterSnapshot close) id)).goTo id handler
      (.persisting purpose close none)
  | none => settled.goTo id handler (.abandoned purpose)

/-- The guard is dropped: only a joiner's own close answers for its roster's append. -/
def closed (self : World) (id : Nat) (handler : Handler) (result : Option (RoundClose × Bool)) :
    Purpose → World
  | .joining left waitingUntil _ =>
    match result with
    | none => self.releaseSlot.replan id handler waitingUntil left
    | some (close, true) => self.releaseSlot.joined id handler (.ready close)
    | some (_, false) => self.releaseSlot.joined id handler .unavailable
  | .waiting wait early => self.releaseSlot.closeTried id handler wait early

def claim (self : World) (id : Nat) (handler : Handler) (wait : Wait) (early : Bool)
    (left waitingUntil : Nat) : World :=
  let (rounds, claim) := self.rounds.deadlineClaim wait.round
  let claimed : World := { self with rounds }
  match claim with
  | .notMine => claimed.closeTried id handler wait early
  | .wait slot => claimed.goTo id handler (.claimWaiting wait early left waitingUntil slot)
  | .claimed =>
    (claimed.ask (.transition .joinBarrierComplete (some id) (some wait.round))).goTo id handler
      (.closing (.waiting wait early) none)

/-- `reprune_awaiting`, past the last member it has to look at. -/
def repruned (self : World) (id : Nat) (handler : Handler) (wait : Wait) (kept : List String) :
    World :=
  let pruned : World := { self with rounds := self.rounds.setAwaiting kept, lock := none }
  match self.sessions.latestDeadline kept with
  | none => pruned.goTo id handler
      (.claiming wait true (maxJoinReplans - 1) (self.now + slotWait))
  | some next => pruned.goTo id handler (.checking wait (min next wait.deadline))

/-- A step of a handler that takes the mutex; it must be free. -/
def locked (self : World) (step : World) : Option World :=
  if self.lock.isNone then some step else none

def advance (self : World) (id : Nat) (handler : Handler) : Option World :=
  match handler.place with
  | .planning left waitingUntil => self.locked (self.plan id handler left waitingUntil)
  | .slotWaiting left waitingUntil slot =>
    if self.rounds.inFlight ≠ some slot ∨ waitingUntil ≤ self.now then
      some (self.replan id handler waitingUntil left)
    else none
  | .opening left waitingUntil _ answer =>
    answer.bind fun answer => self.locked (self.open_ id handler left waitingUntil answer)
  | .opened left waitingUntil unavailable =>
    self.locked (if unavailable then self.releaseSlot.joined id handler .unavailable
      else self.releaseSlot.replan id handler waitingUntil left)
  | .closing purpose answer =>
    answer.bind fun answer => self.locked (self.close id handler purpose answer)
  | .persisting purpose close answer =>
    answer.bind fun answer => self.locked (self.closed id handler (some (close, answer)) purpose)
  | .abandoned purpose => self.locked (self.closed id handler none purpose)
  | .looking wait =>
    match self.rounds.outcomes wait.round with
    | some outcome => some (self.published id handler outcome)
    | none => some (self.goTo id handler (.repruning wait))
  | .repruning wait =>
    self.locked (match self.rounds.awaited wait.round with
      | none => self.goTo id handler (.checking wait wait.deadline)
      | some awaiting => { self with lock := some id }.goTo id handler (.pruning wait [] awaiting))
  | .pruning wait kept [] => some (self.repruned id handler wait kept)
  | .pruning wait kept (memberId :: rest) =>
    if self.sessions.isLive self.now memberId then
      some (self.goTo id handler (.pruning wait (kept ++ [memberId]) rest))
    else some (self.goTo id handler (.pruning wait kept rest))
  | .claiming wait early left waitingUntil =>
    self.locked (self.claim id handler wait early left waitingUntil)
  | .claimWaiting wait early left waitingUntil slot =>
    if self.rounds.inFlight ≠ some slot then
      match left with
      | 0 => some (self.closeTried id handler wait early)
      | left + 1 => some (self.goTo id handler (.claiming wait early left waitingUntil))
    else if waitingUntil ≤ self.now then some (self.closeTried id handler wait early)
    else none
  | .checking wait nextCheck =>
    match self.rounds.outcomes wait.round with
    | some outcome => some (self.published id handler outcome)
    | none => some (self.goTo id handler (.parked wait nextCheck))
  | .parked wait nextCheck =>
    if self.now < nextCheck then none
    else if self.now < wait.deadline then some (self.goTo id handler (.looking wait))
    else some (self.goTo id handler
      (.claiming wait false (maxJoinReplans - 1) (self.now + slotWait)))
  | .lapsed wait =>
    match self.rounds.outcomes wait.round with
    | some outcome => some (self.published id handler outcome)
    | none =>
      if wait.tried then some (self.goTo id handler (.withdrawing wait))
      else some (self.goTo id handler (.looking { wait with tried := true }))
  | .withdrawing wait =>
    let rounds := self.rounds.withdraw handler.member.memberId wait.round
    let gone := (self.rounds.outcomes wait.round).isNone
    self.locked ({ self with rounds }.goTo id
      { handler with enrolled := if gone then none else handler.enrolled }
      (.answered (.refused Refusal.rebalanceInProgress.errorCode)))
  | .registering close =>
    let sessions := self.sessions.register self.now handler.member.memberId handler.sessionTimeoutMs
    some ({ self with sessions }.goTo id handler (.answered (.success close)))
  | .answered _ | .dropped => none

/-- The answer to a transition reaches the handler that still awaits it. -/
def deliver (self : World) (replyTo : Option Nat) (answer : Except Error GroupRecord) : World :=
  match replyTo with
  | none => self
  | some id =>
    match self.handlers id with
    | none => self
    | some handler =>
      match handler.place with
      | .opening left waitingUntil event none =>
        self.goTo id handler (.opening left waitingUntil event (some answer))
      | .closing purpose none => self.goTo id handler (.closing purpose (some answer))
      | _ => self

def serve (self : World) (request : Request) (lands : Bool) : World :=
  match request with
  | .transition event replyTo round =>
    match (self.record.getD .fresh).transition event with
    | .error refusal => self.deliver replyTo (.error refusal)
    | .ok record =>
      if lands then
        let roster := if event = .allMembersGone ∨ event = .expire then none else self.roster
        let barriers := match round, replyTo with
          | some round, some holder => self.barriers ++ [⟨round, holder, record.generation⟩]
          | _, _ => self.barriers
        { self with record := some record, roster, barriers }.deliver replyTo (.ok record)
      else self.deliver replyTo (.error .transient)
  | .roster roster replyTo =>
    let kept : World := if lands then { self with roster := some roster } else self
    match kept.handlers replyTo with
    | some handler =>
      match handler.place with
      | .persisting purpose close none => kept.goTo replyTo handler
          (.persisting purpose close (some lands))
      | _ => kept
    | none => kept

def remove (self : World) (keep : String → MemberSession → Bool) : World :=
  match self.sessions.removeWhere keep with
  | (sessions, none) => { self with sessions }
  | (sessions, some event) => { self with sessions }.ask (.transition event none none)

def step (self : World) : Action → Option World
  | .tick now => if self.now ≤ now then some { self with now } else none
  | .arrive id requested protocolType protocols rebalanceTimeoutMs sessionTimeoutMs
      loadInProgress =>
    if (self.handlers id).isSome then none
    else some (self.arrive id requested protocolType protocols rebalanceTimeoutMs sessionTimeoutMs
      loadInProgress)
  | .advance id => do
    let handler ← self.handlers id
    self.advance id handler
  | .notified id => do
    let handler ← self.handlers id
    match handler.place with
    | .parked wait _ =>
      if (self.rounds.outcomes wait.round).isSome then some (self.goTo id handler (.looking wait))
      else none
    | _ => none
  | .drop id => do
    let handler ← self.handlers id
    if handler.place.awaits then
      if handler.place.holdsSlot then self.locked (self.releaseSlot.goTo id handler .dropped)
      else some (self.goTo id handler .dropped)
    else none
  | .serve lands =>
    match self.queue with
    | [] => none
    | request :: queue => some ({ self with queue }.serve request lands)
  | .renew memberId => some { self with sessions := self.sessions.renew self.now memberId }
  | .sweep => some (self.remove fun _ session => decide (self.now < session.deadline))
  | .leave memberIds => some (self.remove fun id _ => decide (id ∉ memberIds))
  | .syncComplete => some (self.ask (.transition .syncComplete none none))

end World

end JoinGroup

end Oqueue
