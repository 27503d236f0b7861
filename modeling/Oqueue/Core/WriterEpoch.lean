import Oqueue.Library.Decimal
import Oqueue.Library.Steps
import Oqueue.Core.Types

/-!
# Writer epochs

A node that starts takes the next epoch by creating its object, if absent, in one
store. Names are relative to the allocator's prefix, and the store is what lies under
it. An `allocate` is cut where it waits on the store: any number of calls may be waiting
at once. A call whose process has died is one whose last request lands unheard, however
late, or never.
-/

namespace Oqueue

namespace WriterEpoch

/-- `OQWE` -/
def termMagic : List UInt8 := [79, 81, 87, 69]

/-- `OQWE-MARKER` -/
def markerMagic : List UInt8 := [79, 81, 87, 69, 45, 77, 65, 82, 75, 69, 82]

def listPage : Nat := 1000

def maxAllocationAttempts : Nat := 128

def maxWriterEpoch : Nat := 2 ^ 40 - 1

abbrev Name := List Char

def key (term : Nat) : Name := Decimal.padded 20 term

def markerKey : Name := ['m', 'a', 'r', 'k', 'e', 'r']

def nextTerm (newest : Nat) : Except Error Nat :=
  if newest + 1 ≤ u64Max then
    if maxWriterEpoch < newest + 1 then .error (.nonceWriterEpochOutOfRange (newest + 1))
    else .ok (newest + 1)
  else .error (.nonceWriterEpochOutOfRange u64Max)

inductive Request where
  /-- The first names, in byte order, strictly after the given one. -/
  | list (after : Option Name)
  | get (name : Name)
  /-- Writes an object that must not be there. -/
  | put (name : Name) (bytes : List UInt8)

def Request.Answer : Request → Type
  | .list _ => List Name
  | .get _ => List UInt8
  | .put _ _ => Unit

abbrev Store := List (Name × List UInt8)

namespace Store

def names (self : Store) : List Name := self.map Prod.fst

def list (self : Store) (after : Option Name) (limit : Nat) : List Name :=
  ((self.names.filter fun name => after.all fun last => decide (last < name)).insertionSort
    (· ≤ ·)).take limit

def serve (self : Store) : (request : Request) → Store × Except Error request.Answer
  | .list after => (self, .ok (self.list after listPage))
  | .get name =>
    match self.lookup name with
    | none => (self, .error (.objectNotFound ⟨String.ofList name⟩))
    | some bytes => (self, .ok bytes)
  | .put name bytes =>
    if name ∈ self.names then (self, .error (.preconditionFailed (String.ofList name)))
    else (self ++ [(name, bytes)], .ok ())

end Store

/-- Where an `allocate` waits, with the attempts it has left. -/
inductive Call where
  -- `list_terms`
  | listing (left : Nat) (terms : List Nat) (after : Option Name)
  -- `newest`, reading one term with others to come
  | reading (left newest term : Nat) (rest : List Nat)
  -- `marker_exists`, when there is no term
  | probing (left : Nat)
  | founding (left : Nat)
  -- `ensure_marker`, for a call that has founded the line or has found its newest term
  | marking (left : Nat) (newest : Option Nat)
  | checking (left : Nat) (newest : Option Nat)
  | putting (left next : Nat)
  deriving DecidableEq, Repr

abbrev Continues := Call ⊕ Except Error Nat

def listed (terms : List Nat) (suffix : Name) : Except Error (List Nat) :=
  if suffix = markerKey then .ok terms
  else if suffix.length ≠ 20 ∨ ¬ suffix.all Char.isDigit then .error (.malformedMetadataSegment 0)
  else if u64Max < Decimal.number suffix then .error (.malformedMetadataSegment 0)
  else .ok (if Decimal.number suffix ∈ terms then terms
    else terms.orderedInsert (· ≤ ·) (Decimal.number suffix))

/-- The terms must run from zero with no gap. -/
def contiguous : Nat → List Nat → Except Error Unit
  | _, [] => .ok ()
  | expected, term :: rest =>
    if term ≠ expected then .error (.malformedMetadataSegment 0)
    else if expected + 1 ≤ u64Max then contiguous (expected + 1) rest
    else .error (.nonceWriterEpochOutOfRange u64Max)

/-- Whether an object that holds nothing but `magic` is there, as its read answers. -/
def holding (magic : List UInt8) : Except Error (List UInt8) → Except Error Bool
  | .ok bytes => if bytes ≠ magic then .error (.malformedMetadataSegment 0) else .ok true
  | .error (.objectNotFound _) => .ok false
  | .error other => .error other

def readTerm : Except Error (List UInt8) → Except Error Bool := holding termMagic

def markerExists : Except Error (List UInt8) → Except Error Bool := holding markerMagic

/-- Whether a conditional write created its object, or lost to another. -/
def created : Except Error Unit → Except Error Bool
  | .ok () => .ok true
  | .error (.preconditionFailed _) => .ok false
  | .error other => .error other

namespace Call

def attempt : Nat → Continues
  | 0 => .inr (.error .transient)
  | left + 1 => .inl (.listing left [] none)

/-- `newest`, once the listing is complete. -/
def gathered (left : Nat) (terms : List Nat) : Continues :=
  match contiguous 0 terms with
  | .error refusal => .inr (.error refusal)
  | .ok () =>
    match terms, terms.getLast? with
    | term :: rest, some newest => .inl (.reading left newest term rest)
    | _, _ => .inl (.probing left)

/-- `allocate`, once the marker is known to be there. -/
def marked (left : Nat) : Option Nat → Continues
  | none => .inr (.ok 0)
  | some newest =>
    match nextTerm newest with
    | .error refusal => .inr (.error refusal)
    | .ok next => .inl (.putting left next)

def request : Call → Request
  | .listing _ _ after => .list after
  | .reading _ _ term _ => .get (key term)
  | .probing _ => .get markerKey
  | .founding _ => .put (key 0) termMagic
  | .marking _ _ => .put markerKey markerMagic
  | .checking _ _ => .get markerKey
  | .putting _ next => .put (key next) termMagic

/-- `list_terms`, once a page is there. -/
def turned (left : Nat) (terms : List Nat) (page : List Name) : Continues :=
  match page.getLast? with
  | none => gathered left terms
  | some last =>
    match page.foldlM listed terms with
    | .error refusal => .inr (.error refusal)
    | .ok terms =>
      if page.length = listPage then .inl (.listing left terms (some last))
      else gathered left terms

def resume : (call : Call) → Except Error call.request.Answer → Continues
  | .listing _ _ _, .error refusal => .inr (.error refusal)
  | .listing left terms _, .ok page => turned left terms page
  | .reading left newest _ rest, answer =>
    match readTerm answer with
    | .error refusal => .inr (.error refusal)
    | .ok false => .inr (.error (.malformedMetadataSegment 0))
    | .ok true =>
      match rest with
      | [] => .inl (.marking left (some newest))
      | term :: rest => .inl (.reading left newest term rest)
  | .probing left, answer =>
    match markerExists answer with
    | .error refusal => .inr (.error refusal)
    | .ok true => .inr (.error (.malformedMetadataSegment 0))
    | .ok false => .inl (.founding left)
  | .founding left, answer =>
    match created answer with
    | .error refusal => .inr (.error refusal)
    | .ok true => .inl (.marking left none)
    | .ok false => attempt left
  | .marking left newest, answer =>
    match created answer with
    | .error refusal => .inr (.error refusal)
    | .ok true => marked left newest
    | .ok false => .inl (.checking left newest)
  | .checking left newest, answer =>
    match markerExists answer with
    | .error refusal => .inr (.error refusal)
    | .ok true => marked left newest
    | .ok false => .inr (.error (.malformedMetadataSegment 0))
  | .putting left next, answer =>
    match created answer with
    | .error refusal => .inr (.error refusal)
    | .ok true => .inr (.ok next)
    | .ok false => attempt left

end Call

inductive Event where
  | began (id : Nat)
  | returned (id epoch : Nat)
  deriving DecidableEq, Repr

/-- The store, the calls that wait on it, and what callers have seen so far. -/
structure World where
  objects : Store := []
  calls : Nat → Option Call := fun _ => none
  history : List Event := []

inductive Action where
  | allocate (id : Nat)
  /-- The request lands and is answered. -/
  | serve (id : Nat)
  /-- The request lands, and the caller is told of an error. -/
  | unheard (id : Nat) (refusal : Error)
  /-- The request never lands, and the caller is told of an error. -/
  | refuse (id : Nat) (refusal : Error)
  /-- The caller is gone. -/
  | abandon (id : Nat)

namespace World

def setCall (self : World) (id : Nat) (call : Option Call) : World :=
  { self with calls := Function.update self.calls id call }

def continues (self : World) (id : Nat) : Continues → World
  | .inl call => self.setCall id (some call)
  | .inr (.error _) => self.setCall id none
  | .inr (.ok epoch) =>
    { self.setCall id none with history := self.history ++ [.returned id epoch] }

def step (self : World) : Action → Option World
  | .allocate id =>
    if (self.calls id).isSome then none
    else
      let begun : World := { self with history := self.history ++ [.began id] }
      some (begun.continues id (Call.attempt maxAllocationAttempts))
  | .serve id => do
    let call ← self.calls id
    let (objects, answer) := self.objects.serve call.request
    let served : World := { self with objects }
    return served.continues id (call.resume answer)
  | .unheard id refusal => do
    let call ← self.calls id
    let served : World := { self with objects := (self.objects.serve call.request).1 }
    return served.continues id (call.resume (.error refusal))
  | .refuse id refusal => do
    let call ← self.calls id
    return self.continues id (call.resume (.error refusal))
  | .abandon id => some (self.setCall id none)

end World

end WriterEpoch

end Oqueue
