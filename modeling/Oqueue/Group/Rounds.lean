import Mathlib.Data.List.Sort
import Mathlib.Order.WithBot
import Mathlib.Logic.Function.Basic
import Oqueue.Group.Protocol
import Oqueue.Group.State

/-!
# Join rounds

What `JoinGroup` handlers share of one group under one mutex: the open round, the roster
the last one closed with, and the in-flight slot. A round is told from another by the
identity of its outcome cell, a number here, and so is one claim of the slot from the next.
Who enrols, opens or closes is decided here; the transitions themselves are awaited
outside the mutex, by whoever holds the slot.
-/

namespace Oqueue

structure RoundMember where
  memberId : String
  protocolType : String
  protocols : List (String × List UInt8)
  rebalanceTimeout : Nat
  deriving DecidableEq, Repr

structure RoundClose where
  generation : Int
  leader : String
  protocolType : String
  protocolName : String
  members : List RoundMember
  deriving DecidableEq, Repr

structure OpenRound where
  id : Nat
  members : List RoundMember
  /-- Who of the previous roster has not come back yet. -/
  awaiting : Option (List String)
  deadline : Nat
  deriving DecidableEq, Repr

def initialRebalanceDelay : Nat := 3000

def slotWait : Nat := 5000

def maxJoinReplans : Nat := 8

def memberIds (members : List RoundMember) : List String := members.map RoundMember.memberId

def RoundMember.names (self : RoundMember) : List String := self.protocols.map Prod.fst

def asCandidates (members : List RoundMember) : List Candidate :=
  members.map fun member => ⟨member.memberId, member.names⟩

/-- The outcome of a round is set once: to its close, or to nothing if it is abandoned.
What a round inherited is kept for the proofs. -/
structure Rounds where
  openRound : Option OpenRound := none
  lastRoundMembers : Option (List String) := none
  inFlight : Option Nat := none
  claims : Nat := 0
  installed : Nat := 0
  outcomes : Nat → Option (Option RoundClose) := fun _ => none
  inherited : Nat → Option (List String) := fun _ => none

inductive JoinOutcome where
  | unavailable
  | busy
  | ready (close : RoundClose)
  | pending (round deadline : Nat)
  | refused
  deriving DecidableEq, Repr

inductive JoinStep where
  | wait (slot : Nat)
  | openWith (event : GroupEvent)
  | close (round : Nat)
  | finished (outcome : JoinOutcome)
  deriving DecidableEq, Repr

inductive DeadlineClaim where
  | notMine
  | wait (slot : Nat)
  | claimed
  deriving DecidableEq, Repr

/-- The event that opens a round, none if the group is already preparing one. -/
def openingEvent (record : Option GroupRecord) : Except Unit (Option GroupEvent) :=
  match record.map GroupRecord.state with
  | none | some .empty | some .stable => .ok (some .join)
  | some .completingRebalance => .ok (some .memberJoinedDuringSync)
  | some .preparingRebalance => .ok none
  | some .dead => .error ()

/-- A member takes its earlier entry's place, or the last one. -/
def enrolled (members : List RoundMember) (member : RoundMember) : List RoundMember :=
  if member.memberId ∈ memberIds members then
    members.map fun other => if other.memberId = member.memberId then member else other
  else members ++ [member]

/-- Where a member stood in the previous roster; after everyone, if it did not. -/
def rank (previous : List String) (member : RoundMember) : WithTop Nat :=
  previous.zipIdx.foldl (fun found entry =>
    if entry.1 = member.memberId then (entry.2 : WithTop Nat) else found) ⊤

namespace Rounds

/-- Claims the slot, or says whose claim to wait for. -/
def claimOrWait (self : Rounds) : Rounds × Option Nat :=
  match self.inFlight with
  | some held => (self, some held)
  | none => ({ self with inFlight := some self.claims, claims := self.claims + 1 }, none)

def release (self : Rounds) : Rounds := { self with inFlight := none }

/-- A first value stays. -/
def setOutcome (self : Rounds) (round : Nat) (outcome : Option RoundClose) : Rounds :=
  if (self.outcomes round).isSome then self
  else { self with outcomes := Function.update self.outcomes round (some outcome) }

def isOwnOpenRound (self : Rounds) (round own : Nat) : Bool :=
  round == own && (self.outcomes round).isNone

def needsOpen (self : Rounds) : Bool :=
  self.openRound.all fun round => (self.outcomes round.id).isSome

def installRound (self : Rounds) (now rebalanceTimeout : Nat) : Rounds :=
  let delay := if self.lastRoundMembers.isNone then min initialRebalanceDelay rebalanceTimeout
    else rebalanceTimeout
  { self with
    openRound := some ⟨self.installed, [], self.lastRoundMembers, now + delay⟩
    installed := self.installed + 1
    inherited := Function.update self.inherited self.installed self.lastRoundMembers }

def planOpen (self : Rounds) (record : Option GroupRecord) (now rebalanceTimeout : Nat) :
    Rounds × Option JoinStep :=
  match self.claimOrWait with
  | (self, some held) => (self, some (.wait held))
  | (claimed, none) =>
    match openingEvent record with
    | .ok (some event) => (claimed, some (.openWith event))
    | .ok none => ((claimed.installRound now rebalanceTimeout).release, none)
    | .error () => (claimed.release, some (.finished .refused))

/-- Enrols a member in the open round, and claims the slot to close it if nobody is
awaited any longer. -/
def enrol (self : Rounds) (member : RoundMember) : Rounds × JoinStep :=
  match self.openRound with
  | none => (self, .finished .refused)
  | some round =>
    let trial := enrolled round.members member
    if (elect (asCandidates trial)).isNone then (self, .finished .refused)
    else
      let awaiting : Option (List String) := round.awaiting.map (·.filter (· ≠ member.memberId))
      let joined := { self with openRound := some { round with members := trial, awaiting } }
      let pending := JoinStep.finished (.pending round.id round.deadline)
      if awaiting = some [] then
        match joined.claimOrWait with
        | (claimed, none) => (claimed, .close round.id)
        | (joined, some _) => (joined, pending)
      else (joined, pending)

def planJoin (self : Rounds) (record : Option GroupRecord) (now : Nat) (member : RoundMember) :
    Rounds × JoinStep :=
  if self.needsOpen then
    match self.planOpen record now member.rebalanceTimeout with
    | (planned, some step) => (planned, step)
    | (installed, none) => installed.enrol member
  else self.enrol member

def deadlineClaim (self : Rounds) (own : Nat) : Rounds × DeadlineClaim :=
  match self.openRound with
  | none => (self, .notMine)
  | some round =>
    if self.isOwnOpenRound round.id own then
      match self.claimOrWait with
      | (claimed, none) => (claimed, .claimed)
      | (self, some held) => (self, .wait held)
    else (self, .notMine)

/-- Destroys the open round, and the roster with it if its members are gone. -/
def abandonRound (self : Rounds) (forgetRoster : Bool) : Rounds :=
  match self.openRound with
  | none => self
  | some round =>
    let abandoned := { self with openRound := none }.setOutcome round.id none
    if forgetRoster then { abandoned with lastRoundMembers := none } else abandoned

/-- What a round closes with: incumbents first, in the order of the previous roster. -/
def closeOf (members : List RoundMember) (previous : List String) (generation : Int) : RoundClose :=
  let members := members.insertionSort fun a b => rank previous a ≤ rank previous b
  let (leader, protocolName) := match elect (asCandidates members) with
    | some elected => (elected.leader, elected.protocolName)
    | none => ((members.head?.map RoundMember.memberId).getD "", "")
  { generation, leader, protocolName, members
    protocolType := ((members.find? (·.memberId = leader)).map RoundMember.protocolType).getD "" }

def finalizeClose (self : Rounds) (generation : Int) : Rounds × Option RoundClose :=
  match self.openRound with
  | none => (self, none)
  | some round =>
    match self.outcomes round.id with
    | some already => (self, already)
    | none =>
      let close := closeOf round.members (self.lastRoundMembers.getD []) generation
      ({ self.setOutcome round.id (some close) with
        openRound := some { round with members := [] }
        lastRoundMembers := some (memberIds close.members) }, some close)

/-- Takes a member that gives up out of its own round, unless that has closed. -/
def withdraw (self : Rounds) (memberId : String) (own : Nat) : Rounds :=
  match self.openRound with
  | none => self
  | some round =>
    if self.isOwnOpenRound round.id own then
      let members := round.members.filter (·.memberId ≠ memberId)
      { self with openRound := some { round with members } }
    else self

/-- The awaited members of an own round that is open and inherited a roster. -/
def awaited (self : Rounds) (own : Nat) : Option (List String) :=
  match self.openRound with
  | none => none
  | some round => if self.isOwnOpenRound round.id own then round.awaiting else none

def setAwaiting (self : Rounds) (awaiting : List String) : Rounds :=
  { self with openRound := self.openRound.map fun round =>
      { round with awaiting := some awaiting } }

end Rounds

end Oqueue
