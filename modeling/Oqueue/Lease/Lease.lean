import Oqueue.Library.Bytes
import Oqueue.Library.Search
import Oqueue.Library.Steps
import Oqueue.Core.Types

/-!
# The leadership lease

Terms are create-only objects in one store, and a holder trusts only its own
clock. An `acquire` or a `renew` is cut where it waits on the store: between two
cuts it runs alone, and any number of calls, of one node or of many, may be
waiting at once. The answer to a request that landed may come late or never.
-/

namespace Oqueue

open Bytes

namespace Lease

def leaseTtlMs : Int := 10000

def leaseSkewMs : Int := 1000

def searchProbes : Nat := 128

def saturatingAdd (a b : Int) : Int := saturate 64 (a + b)

def saturatingSub (a b : Int) : Int := saturate 64 (a - b)

/-- `OQLS` -/
def magic : List UInt8 := [79, 81, 76, 83]

def body (holder : List UInt8) (expires : Int) : List UInt8 :=
  magic ++ (toBeBytes 8 (castUnsigned 64 expires) ++ holder)

/-- The expiry a lease object records. -/
def expiry (bytes : List UInt8) : Except Error Int :=
  if bytes.take 4 ≠ magic then .error (.malformedMetadataSegment 0)
  else if ((bytes.drop 4).take 8).length ≠ 8 then .error (.malformedMetadataSegment 0)
  else .ok (castSigned 64 (fromBeBytes ((bytes.drop 4).take 8)))

structure Held where
  term : Option Nat := none
  writeHandle : Option Nat := none
  validUntil : Int := 0
  deriving DecidableEq, Repr

def Held.lose : Held := ⟨none, none, -(2 ^ 63)⟩

/-- What a renewal read under the lock before its first request. -/
structure Renewal where
  started : Int
  term : Nat
  token : Nat
  deadline : Int
  deriving DecidableEq, Repr

/-- Where a call is: waiting on the store, or on an answer to act upon. -/
inductive Call where
  -- `acquire`
  | searching (started : Int) (search : Search Int)
  | claiming (started : Int) (next : Nat)
  | claimed (started : Int) (next token : Nat)
  -- `renew`
  | probing (renewal : Renewal)
  | renewing (renewal : Renewal)
  | renewed (renewal : Renewal) (token : Nat)
  | superseded
  deriving DecidableEq, Repr

abbrev Continues := Call ⊕ Except Error Bool

/-- `acquire`, once the newest term is known. -/
def Call.challenge (started : Int) : Option (Nat × Int) → Continues
  | none => .inl (.claiming started 0)
  | some (term, expires) =>
    if started < saturatingAdd expires leaseSkewMs then .inr (.ok false)
    else match CommitVersion.advance term 1 with
      | .error refusal => .inr (.error refusal)
      | .ok next => .inl (.claiming started next)

/-- `newest`, at the answer to one of its reads. -/
def Call.searched (started : Int) (search : Search Int) : Except Error (Option Int) → Continues
  | .error refusal => .inr (.error refusal)
  | .ok answer => match search.resume (2 ^ 64) searchProbes answer with
    | .ask search => .inl (.searching started search)
    | .found newest => Call.challenge started newest
    | .overflow absent => .inr (.error (.commitVersionOverflow absent absent))
    | .spun => .inr (.error (.malformedMetadataSegment 0))

/-- `renew`, up to its first request. -/
def Held.renew (self : Held) (started : Int) : Held × Continues :=
  match self.term, self.writeHandle with
  | some term, some token =>
    if self.validUntil ≤ started then (.lose, .inr (.ok false))
    else match CommitVersion.advance term 1 with
      | .error refusal => (self, .inr (.error refusal))
      | .ok _ => (self, .inl (.probing ⟨started, term, token, self.validUntil⟩))
  | _, _ => (self, .inr (.ok false))

/-- What a call does to what the node holds when its last answer arrives. -/
def Held.finish (self : Held) (now : Int) : Call → Option (Held × Bool)
  | .claimed started next token =>
    some (⟨some next, some token, saturatingAdd started leaseTtlMs⟩, true)
  | .renewed renewal token =>
    -- a write that finished too near the old deadline may have gone unseen
    some ({ self with
      writeHandle := some token
      validUntil := if now < saturatingSub renewal.deadline leaseSkewMs
        then saturatingAdd renewal.started leaseTtlMs else self.validUntil }, true)
  | .superseded => some (.lose, false)
  | _ => none

/-- A term's object: its bytes and the store's token for the write that left
them. Who wrote it is kept for the proofs and read by no call. -/
structure LeaseObject (Node : Type) where
  body : List UInt8
  token : Nat
  writer : Node
  deriving DecidableEq, Repr

inductive Precondition where
  | ifAbsent
  | ifMatches (token : Nat)
  deriving DecidableEq, Repr

def Precondition.met {Node : Type} : Precondition → Option (LeaseObject Node) → Bool
  | .ifAbsent, object => object.isNone
  | .ifMatches token, object => object.map LeaseObject.token = some token

/-- One shard's lease: the store, and each node's clock, handle and calls. -/
structure Cluster (Node : Type) where
  holder : Node → List UInt8
  objects : Nat → Option (LeaseObject Node) := fun _ => none
  nextToken : Nat := 0
  clock : Node → Int
  held : Node → Held := fun _ => {}
  calls : Nat → Option (Node × Call) := fun _ => none

namespace Cluster

variable {Node : Type}

def isHeld (self : Cluster Node) (node : Node) : Prop :=
  self.clock node < (self.held node).validUntil

instance (self : Cluster Node) (node : Node) : Decidable (self.isHeld node) :=
  inferInstanceAs (Decidable (_ < _))

def read (self : Cluster Node) (term : Nat) : Except Error (Option Int) :=
  match self.objects term with
  | none => .ok none
  | some object => (expiry object.body).map some

/-- A conditional write of one term, atomic at the store; each gets a fresh token. -/
def put (self : Cluster Node) (writer : Node) (term : Nat) (expires : Int)
    (precondition : Precondition) : Option (Cluster Node) :=
  if precondition.met (self.objects term) then some { self with
    objects := Function.update self.objects term
      (some ⟨Lease.body (self.holder writer) expires, self.nextToken, writer⟩)
    nextToken := self.nextToken + 1 }
  else none

/-- The store serves the request a call waits on. -/
def serve (self : Cluster Node) (node : Node) : Call → Option (Cluster Node × Continues)
  | .searching started search =>
    some (self, Call.searched started search (self.read search.probe))
  | .claiming started next =>
    match self.put node next (saturatingAdd started leaseTtlMs) .ifAbsent with
    | some written => some (written, .inl (.claimed started next self.nextToken))
    | none => some (self, .inr (.ok false))
  | .probing renewal =>
    match self.read (renewal.term + 1) with
    | .error refusal => some (self, .inr (.error refusal))
    | .ok (some _) => some (self, .inl .superseded)
    | .ok none => some (self, .inl (.renewing renewal))
  | .renewing renewal =>
    match self.put node renewal.term (saturatingAdd renewal.started leaseTtlMs)
        (.ifMatches renewal.token) with
    | some written => some (written, .inl (.renewed renewal self.nextToken))
    | none => some (self, .inl .superseded)
  | _ => none

def setCall (self : Cluster Node) (id : Nat) (call : Option (Node × Call)) : Cluster Node :=
  { self with calls := Function.update self.calls id call }

variable [DecidableEq Node]

def setHeld (self : Cluster Node) (node : Node) (held : Held) : Cluster Node :=
  { self with held := Function.update self.held node held }

end Cluster

/-- What may happen next. -/
inductive Action (Node : Type) where
  | tick (clock : Node → Int)
  /-- A node starts over with a handle that holds nothing. -/
  | new (node : Node)
  | acquire (id : Nat) (node : Node)
  | renew (id : Nat) (node : Node)
  /-- The request lands and is answered. -/
  | serve (id : Nat)
  /-- The request lands and its answer is lost; the caller may send it again. -/
  | unheard (id : Nat)
  | finish (id : Nat)
  /-- The call ends in an error, whatever its requests did. -/
  | abandon (id : Nat)

variable {Node : Type}

/-- Times are never negative, fit the wire's integer, and agree up to the skew. -/
def Readings (clock : Node → Int) : Prop :=
  ∀ a, 0 ≤ clock a ∧ clock a ≤ i64Max ∧ ∀ b, clock a - clock b ≤ leaseSkewMs

instance [Fintype Node] (clock : Node → Int) : Decidable (Readings clock) :=
  inferInstanceAs (Decidable (∀ _, _))

namespace Cluster

variable [DecidableEq Node]

/-- Records where a call went, or that it returned. -/
def continues (self : Cluster Node) (id : Nat) (node : Node) : Continues → Cluster Node
  | .inl call => self.setCall id (some (node, call))
  | .inr _ => self.setCall id none

variable [Fintype Node]

def step (self : Cluster Node) : Action Node → Option (Cluster Node)
  | .tick clock =>
    if Readings clock ∧ ∀ node, self.clock node ≤ clock node then some { self with clock }
    else none
  | .new node => some (self.setHeld node {})
  | .acquire id node =>
    if (self.calls id).isSome then none
    else some (self.setCall id (some (node, .searching (self.clock node) .first)))
  | .renew id node =>
    if (self.calls id).isSome then none
    else
      let (held, next) := (self.held node).renew (self.clock node)
      some ((self.setHeld node held).continues id node next)
  | .serve id => do
    let (node, call) ← self.calls id
    let (served, next) ← self.serve node call
    return served.continues id node next
  | .unheard id => do
    let (node, call) ← self.calls id
    let (served, _) ← self.serve node call
    return served
  | .finish id => do
    let (node, call) ← self.calls id
    let (held, _) ← (self.held node).finish (self.clock node) call
    return (self.setHeld node held).setCall id none
  | .abandon id => some (self.setCall id none)

end Cluster

end Lease

end Oqueue
