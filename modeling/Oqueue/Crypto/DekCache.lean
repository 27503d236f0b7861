import Oqueue.Core.Region
import Oqueue.Library.Steps
import Oqueue.Library.Table

/-!
# Live data-encryption keys

A topic seals under one key until the key is old or has sealed enough. The decision to
rotate is made before the provider is asked to wrap a fresh key and again after it, and the
second one installs and seals under the same lock. A key is told from the others by which
of the mints it came out of.
-/

namespace Oqueue

/-- The difference of two `i64` times, at the ends of the type where it is outside. -/
def saturatingSubI64 (a b : Int) : Int := max (-2 ^ 63) (min (a - b) (2 ^ 63 - 1))

end Oqueue

namespace Oqueue.DekCache

def maxSealedBytes : Nat := 68719476736
def maxAgeMs : Int := 604800000

/-- The key material, and which mint it came out of. -/
structure Dek where
  bytes : List UInt8
  mint : Nat
  deriving DecidableEq, Repr

abbrev WrappedKey := List UInt8

structure LiveDek where
  keyId : KeyId
  wrapped : WrappedKey
  dek : Dek
  mintedAt : Int
  sealedBytes : Nat
  deriving DecidableEq, Repr

def LiveDek.usable (self : LiveDek) (keyId : KeyId) (now : Int) : Bool :=
  decide (self.keyId = keyId) && decide (self.sealedBytes < maxSealedBytes) &&
    decide (saturatingSubI64 now self.mintedAt < maxAgeMs)

def LiveDek.charge (self : LiveDek) (bytes : Nat) : LiveDek :=
  { self with sealedBytes := saturatingAdd self.sealedBytes bytes }

/-- What a call of `with_live_dek` asks for. -/
structure Request where
  topic : TopicId
  keyId : KeyId
  bytes : Nat
  deriving DecidableEq, Repr

/-- Where a call stands. Other calls run between any two of these. -/
inductive Phase where
  | unborn
  /-- The clock is read, and the lock is still to be taken. -/
  | looking (request : Request) (now : Int)
  | missed (request : Request)
  /-- At the await. -/
  | wrapping (request : Request) (dek : Dek)
  | wrapped (request : Request) (dek : Dek) (wrapped : WrappedKey)
  | installing (request : Request) (dek : Dek) (wrapped : WrappedKey) (now : Int)
  | counting (request : Request)
  | done
  | failed
  deriving DecidableEq, Repr

/-- One run of a seal closure: for which call, and under what entry before its charge. -/
structure Seal where
  call : Nat
  request : Request
  now : Int
  entry : LiveDek
  deriving DecidableEq, Repr

structure World where
  clock : Int
  live : Finmap fun _ : TopicId => LiveDek := ∅
  mints : Finmap fun _ : TopicId => Nat := ∅
  calls : Nat → Phase := fun _ => .unborn
  /-- How many keys were minted. -/
  minted : Nat := 0
  /-- What the provider answered for, newest first. -/
  wraps : List (Dek × KeyId × WrappedKey) := []
  /-- The seal closures that ran, newest first. -/
  seals : List Seal := []
  /-- The keys that were replaced, or lost the race to be installed. -/
  dropped : List Nat := []

inductive Action where
  | tick (now : Int)
  | call (call : Nat) (request : Request)
  | useLive (call : Nat)
  | mint (call : Nat) (bytes : Option (List UInt8))
  | wrap (call : Nat) (answer : Option WrappedKey)
  | readClock (call : Nat)
  | install (call : Nat)
  | count (call : Nat)
  | drop (call : Nat)

namespace World

def move (w : World) (call : Nat) (phase : Phase) : World :=
  { w with calls := Function.update w.calls call phase }

/-- Seals under an entry, charges it and leaves it live. -/
def sealUnder (w : World) (call : Nat) (request : Request) (now : Int) (entry : LiveDek) : World :=
  { w with
    live  := w.live.insert request.topic (entry.charge request.bytes)
    seals := ⟨call, request, now, entry⟩ :: w.seals }

/-- The critical section of `use_live`. -/
def useLive (w : World) (call : Nat) (request : Request) (now : Int) : World :=
  match w.live.lookup request.topic with
  | none => w.move call (.missed request)
  | some entry =>
    if entry.usable request.keyId now then
      (w.sealUnder call request now entry).move call .done
    else w.move call (.missed request)

/-- The critical section of `rotate_and_use`. -/
def install (w : World) (call : Nat) (request : Request) (dek : Dek) (wrapped : WrappedKey)
    (now : Int) : World :=
  let fresh : LiveDek := ⟨request.keyId, wrapped, dek, now, 0⟩
  match w.live.lookup request.topic with
  | some entry =>
    if entry.usable request.keyId now then
      { (w.sealUnder call request now entry).move call .done with
        dropped := fresh.dek.mint :: w.dropped }
    else
      { (w.sealUnder call request now fresh).move call (.counting request) with
        dropped := entry.dek.mint :: w.dropped }
  | none => (w.sealUnder call request now fresh).move call (.counting request)

def step (w : World) : Action → Option World
  | .tick now => if w.clock ≤ now then some { w with clock := now } else none
  | .call call request => match w.calls call with
    | .unborn => some (w.move call (.looking request w.clock))
    | _ => none
  | .useLive call => match w.calls call with
    | .looking request now => some (w.useLive call request now)
    | _ => none
  | .mint call bytes => match w.calls call with
    | .missed request => match bytes with
      | none => some (w.move call .failed)
      | some bytes =>
        some { w.move call (.wrapping request ⟨bytes, w.minted⟩) with minted := w.minted + 1 }
    | _ => none
  | .wrap call answer => match w.calls call with
    | .wrapping request dek => match answer with
      | none => some (w.move call .failed)
      | some wrapped =>
        some { w.move call (.wrapped request dek wrapped) with
          wraps := (dek, request.keyId, wrapped) :: w.wraps }
    | _ => none
  | .readClock call => match w.calls call with
    | .wrapped request dek wrapped => some (w.move call (.installing request dek wrapped w.clock))
    | _ => none
  | .install call => match w.calls call with
    | .installing request dek wrapped now => some (w.install call request dek wrapped now)
    | _ => none
  | .count call => match w.calls call with
    | .counting request =>
      some { w.move call .done with
        mints := w.mints.insert request.topic ((w.mints.lookup request.topic).getD 0 + 1) }
    | _ => none
  | .drop call => match w.calls call with
    | .wrapping _ _ => some (w.move call .failed)
    | _ => none

end World

end Oqueue.DekCache
