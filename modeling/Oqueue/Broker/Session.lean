import Oqueue.Coordinator.ServingIndex
import Oqueue.Core.Staleness
import Oqueue.Library.Steps

/-!
# What a connection has been promised

A produce that is acknowledged raises the session's watermark, and a fetch reads nothing from an
index that is short of it. Between the two there is the coordinator's loop, which may empty the
index or rebuild it, and any number of other requests.
-/

namespace Oqueue

namespace Session

/-- The epochs decide first: a version means something within its own only. -/
def observe (held : Option SessionWatermark) (watermark : SessionWatermark) :
    Option SessionWatermark :=
  let keep := held.any fun current =>
    match compare current.epoch watermark.epoch with
    | .gt => true
    | .lt => false
    | .eq => decide (watermark.version ≤ current.version)
  if keep then held else some watermark

end Session

def CommitAck.watermark (self : CommitAck) : SessionWatermark := ⟨self.epoch, self.version⟩

namespace Leader

/-- `Cluster::cache_state`: an index of this process is never silent. -/
def cacheState (self : Leader) : CacheState := ⟨self.epoch, self.cell.appliedUpto, 0⟩

/-- What `IndexWatch` shows. -/
def watched (self : Leader) : Option Nat := (self.published.getLast?).bind Publication.announced

/-- A commit that is acknowledged, with the spans that were journaled for it; the others were
answered from what the allocator remembers. -/
structure Written where
  ack : CommitAck
  object : ObjectKey
  journaled : List CommittedSpan
  writtenAt : Nat

def written (self : Leader) (turn : Turn) : Option Written :=
  match turn.request with
  | .write (.commit object spans writtenAt) => match self.mayWrite turn with
    | (_, .error _) => none
    | (self, .ok ()) => match (self.serve turn object spans writtenAt).2 with
      | .error _ => none
      | .ok ack => some {
          ack, object, writtenAt
          journaled := (self.allocator.admitSpans spans).admitted.map Prod.snd }
  | _ => none

namespace Written

/-- `flush` raises the watermark only for a commit that gave an offset. -/
def assigned (self : Written) : Bool := self.ack.outcomes.any fun outcome =>
  outcome.assignment?.isSome

/-- What the log holds of it. -/
def entry (self : Written) : MetadataEntry :=
  ⟨self.ack.version, .batchCommitted self.object self.journaled self.writtenAt⟩

end Written

end Leader

namespace ReadYourWrites

/-- Where `catch_up` stands. -/
inductive Place where
  | waiting (want : SessionWatermark) (refusal : RefreshReason)
  /-- It returned, and this is the index as it then was. -/
  | admitted (cell : Cell)
  | refused (reason : RefreshReason)

structure Fetch where
  session : Nat
  /-- What its session had observed when it began. -/
  promised : List Leader.Written
  place : Place

structure World where
  leader : Leader
  /-- Acknowledgements no session has observed yet. -/
  answers : List Leader.Written := []
  sessions : Nat → Option SessionWatermark := fun _ => none
  /-- What each session has observed. -/
  observed : Nat → List Leader.Written := fun _ => []
  fetches : List Fetch := []

inductive Action where
  | turn (turn : Turn)
  /-- The produce of a session meets one of the acknowledgements. -/
  | observe (session answer : Nat)
  | fetch (session : Nat)
  /-- The watch shows the version a fetch waits for. -/
  | arrive (fetch : Nat)
  | expire (fetch : Nat)

namespace World

def turn (self : World) (turn : Turn) : World :=
  { self with
    leader := self.leader.turn turn
    answers := self.answers ++ (self.leader.written turn).toList }

def observe (self : World) (session : Nat) (written : Leader.Written) : World :=
  if written.assigned then { self with
    sessions := Function.update self.sessions session
      (Session.observe (self.sessions session) written.ack.watermark)
    observed := Function.update self.observed session (self.observed session ++ [written]) }
  else self

/-- Whether the index may be read for a session, as things stand. -/
def check (self : World) (want : SessionWatermark) : Except RefreshReason Unit :=
  self.leader.cacheState.admits (.atLeast want) self.leader.epoch

/-- `catch_up`, up to where it may have to wait. -/
def begin_ (self : World) (session : Nat) : Place :=
  match self.sessions session with
  | none => .admitted self.leader.cell
  | some want => match self.check want with
    | .ok () => .admitted self.leader.cell
    | .error refusal => .waiting want refusal

/-- One re-check, and no loop. -/
def recheck (self : World) (want : SessionWatermark) : Place :=
  match self.check want with
  | .ok () => .admitted self.leader.cell
  | .error reason => .refused reason

def place (self : World) (id : Nat) (fetch : Fetch) (place : Place) : World :=
  { self with fetches := self.fetches.set id { fetch with place } }

def step (self : World) : Action → Option World
  | .turn turn => some (self.turn turn)
  | .observe session answer => (self.answers[answer]?).map (self.observe session)
  | .fetch session => some { self with
      fetches := self.fetches ++ [⟨session, self.observed session, self.begin_ session⟩] }
  | .arrive id => (self.fetches[id]?).bind fun fetch => match fetch.place with
    | .waiting want _ =>
      if self.leader.watched.any fun applied => decide (want.version ≤ applied) then
        some (self.place id fetch (self.recheck want))
      else none
    | _ => none
  | .expire id => (self.fetches[id]?).bind fun fetch => match fetch.place with
    | .waiting _ refusal => some (self.place id fetch (.refused refusal))
    | _ => none

end World

end ReadYourWrites

end Oqueue
