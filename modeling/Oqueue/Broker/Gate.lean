import Oqueue.Broker.Dispatch
import Oqueue.Codec.ErrorCodes
import Oqueue.Codec.Flex
import Oqueue.Core.PrincipalQuota

/-!
# What a request passes before a handler sees it

Every frame of a connection is dispatched by a task of its own. It is parsed, must be of an API
that this node serves and a version that is advertised, must be from an authenticated principal
where credentials are configured, and must be within the principal's quota. The session is read
anew at every one of these steps, and so may have changed.
-/

namespace Oqueue

open Codec Codec.Halting
open Broker (Principal)

namespace ApiKey

def fromI16 : Int → Option ApiKey
  | 0 => some .produce
  | 1 => some .fetch
  | 2 => some .listOffsets
  | 3 => some .metadata
  | 19 => some .createTopics
  | 20 => some .deleteTopics
  | 32 => some .describeConfigs
  | 33 => some .alterConfigs
  | 44 => some .incrementalAlterConfigs
  | 8 => some .offsetCommit
  | 9 => some .offsetFetch
  | 10 => some .findCoordinator
  | 11 => some .joinGroup
  | 12 => some .heartbeat
  | 13 => some .leaveGroup
  | 14 => some .syncGroup
  | 15 => some .describeGroups
  | 16 => some .listGroups
  | 17 => some .saslHandshake
  | 18 => some .apiVersions
  | 22 => some .initProducerId
  | 36 => some .saslAuthenticate
  | 48 => some .describeClientQuotas
  | 49 => some .alterClientQuotas
  | _ => none

end ApiKey

structure Advertised where
  apiKey : ApiKey
  min : Int
  max : Int
  flexibleFrom : Option Int
  deriving DecidableEq, Repr

def advertised : List Advertised :=
  [⟨.produce, 3, 13, some 9⟩, ⟨.fetch, 4, 17, some 12⟩, ⟨.listOffsets, 1, 9, some 6⟩,
    ⟨.metadata, 0, 13, some 9⟩, ⟨.offsetCommit, 2, 9, some 8⟩, ⟨.offsetFetch, 1, 7, some 6⟩,
    ⟨.findCoordinator, 0, 6, some 3⟩, ⟨.joinGroup, 0, 9, some 6⟩, ⟨.heartbeat, 0, 4, some 4⟩,
    ⟨.leaveGroup, 0, 5, some 4⟩, ⟨.syncGroup, 0, 5, some 4⟩, ⟨.describeGroups, 0, 5, some 5⟩,
    ⟨.listGroups, 0, 4, some 3⟩, ⟨.saslHandshake, 0, 1, none⟩, ⟨.apiVersions, 0, 3, some 3⟩,
    ⟨.createTopics, 2, 7, some 5⟩, ⟨.deleteTopics, 1, 6, some 4⟩, ⟨.describeConfigs, 1, 4, some 4⟩,
    ⟨.alterConfigs, 0, 2, some 2⟩, ⟨.incrementalAlterConfigs, 0, 1, some 1⟩,
    ⟨.initProducerId, 0, 4, some 2⟩, ⟨.saslAuthenticate, 0, 2, some 2⟩,
    ⟨.describeClientQuotas, 0, 1, some 1⟩, ⟨.alterClientQuotas, 0, 1, some 1⟩]

def advertisedFor (apiKey : ApiKey) : Option Advertised :=
  advertised.find? fun row => row.apiKey = apiKey

def supports (apiKey : ApiKey) (version : Int) : Bool :=
  (advertisedFor apiKey).any fun row => decide (row.min ≤ version) && decide (version ≤ row.max)

namespace ApiKey

def isFlexible (self : ApiKey) (version : Int) : Bool :=
  ((advertisedFor self).bind Advertised.flexibleFrom).any fun start => decide (start ≤ version)

def requestHeaderVersion (self : ApiKey) (version : Int) : Nat :=
  (self.isFlexible version).toNat + 1

end ApiKey

structure RequestPrelude where
  apiKey : Int
  apiVersion : Int
  correlationId : Int
  deriving DecidableEq, Repr

def readRequestPrelude : Halting RequestPrelude := do
  return { apiKey := ← readI16, apiVersion := ← readI16, correlationId := ← readI32 }

structure RequestHeader where
  prelude : RequestPrelude
  clientId : Option String
  deriving DecidableEq, Repr

inductive FrameError where
  | decode (error : DecodeError)
  | unknownApiKey (apiKey : Int)
  deriving DecidableEq, Repr

def readRequestHeader (prelude : RequestPrelude) (version : Nat) : Halting RequestHeader := do
  let _ ← readI16
  let _ ← readI16
  let _ ← readI32
  let clientId ← if 1 ≤ version then readLegacyNullableString else pure none
  -- no tag of a request is recognised
  if 2 ≤ version then let _ ← readTaggedFields
  return { prelude, clientId }

/-- A header and how many bytes it takes. -/
def decodeRequestHeader (body : List UInt8) : Except FrameError (RequestHeader × Nat) :=
  match (readRequestPrelude ⟨body, 0⟩).1 with
  | .error e => .error (.decode e)
  | .ok prelude => match ApiKey.fromI16 prelude.apiKey with
    | none => .error (.unknownApiKey prelude.apiKey)
    | some apiKey =>
      let version := apiKey.requestHeaderVersion prelude.apiVersion
      match readRequestHeader prelude version ⟨body, 0⟩ with
      | (.error e, _) => .error (.decode e)
      | (.ok header, cur) => .ok (header, cur.pos)

def requestBody (request : List UInt8) : Option (List UInt8) :=
  match decodeRequestHeader request with
  | .ok (_, consumed) => some (request.drop consumed)
  | .error _ => none

inductive NodeRole where
  | combined
  | coordinator
  | dataPlane
  deriving DecidableEq, Repr

def NodeRole.allows : NodeRole → ApiKey → Bool
  | combined, _ => true
  | coordinator, key => match key with
    | .apiVersions | .saslHandshake | .saslAuthenticate | .findCoordinator | .joinGroup
    | .syncGroup | .heartbeat | .leaveGroup | .offsetCommit | .offsetFetch | .describeGroups
    | .listGroups | .createTopics | .deleteTopics | .describeConfigs | .alterConfigs
    | .incrementalAlterConfigs | .describeClientQuotas | .alterClientQuotas => true
    | _ => false
  | dataPlane, key => match key with
    | .apiVersions | .saslHandshake | .saslAuthenticate | .metadata | .fetch | .listOffsets => true
    | _ => false

structure PlainCredential where
  principal : Principal
  password : String
  deriving DecidableEq, Repr

abbrev PlainCredentials := List PlainCredential

def PlainCredentials.verify (self : PlainCredentials) (authcid password : String) :
    Option Principal :=
  (self.find? fun c => c.principal = authcid ∧ c.password = password).map PlainCredential.principal

/-- Three fields with a zero byte between them; the first is not looked at. -/
def parsePlain (authBytes : List UInt8) : Option (String × String) :=
  match authBytes.splitOn 0 with
  | [_, authcid, passwd] => do
    return (← String.fromUTF8? ⟨authcid.toArray⟩, ← String.fromUTF8? ⟨passwd.toArray⟩)
  | _ => none

def decodeSaslAuthenticate (version : Int) : Halting (List UInt8) := do
  let flexible := decide (2 ≤ version)
  let authBytes ← readBytes flexible
  if flexible then let _ ← readTaggedFields
  return authBytes

def decodeSaslHandshake : Halting String := Codec.Halting.readString false

structure SaslAuthenticateResponse where
  errorCode : Int
  errorMessage : Option String
  authBytes : List UInt8
  sessionLifetimeMs : Int
  deriving DecidableEq, Repr

def SaslAuthenticateResponse.refused : SaslAuthenticateResponse where
  errorCode := ErrorCode.saslAuthenticationFailed
  errorMessage := some "SASL/PLAIN authentication failed"
  authBytes := []
  sessionLifetimeMs := 0

/-- What a reply says, as far as it is this module's; a handler's own is `handled`. -/
inductive Reply where
  | apiVersions
  | saslHandshake (errorCode : Int)
  | saslAuthenticate (response : SaslAuthenticateResponse)
  | handled
  deriving DecidableEq, Repr

inductive Answer where
  | close
  | silent
  | reply (reply : Reply)
  deriving DecidableEq, Repr

namespace SaslHandshake

def handle (body : List UInt8) : Answer :=
  match (decodeSaslHandshake ⟨body, 0⟩).1 with
  | .error _ => .close
  | .ok mechanism => .reply (.saslHandshake
    (if mechanism = "PLAIN" then ErrorCode.none else ErrorCode.unsupportedSaslMechanism))

end SaslHandshake

namespace SaslAuthenticate

/-- The principal that a request proves to be. -/
def matched (tls : Bool) (credentials : PlainCredentials) (authBytes : List UInt8) :
    Option Principal :=
  if tls then (parsePlain authBytes).bind fun plain => credentials.verify plain.1 plain.2
  else none

/-- `Session::authenticate` is in it: the first principal stays. -/
def handle (prelude : RequestPrelude) (body : List UInt8) (tls : Bool)
    (credentials : PlainCredentials) (session : Option Principal) : Option Principal × Answer :=
  match (decodeSaslAuthenticate prelude.apiVersion ⟨body, 0⟩).1 with
  | .error _ => (session, .close)
  | .ok authBytes =>
    match matched tls credentials authBytes, session with
    | some principal, none => (some principal, .reply (.saslAuthenticate {
      errorCode := ErrorCode.none
      errorMessage := none
      authBytes := []
      sessionLifetimeMs := 0 }))
    | _, _ => (session, .reply (.saslAuthenticate .refused))

end SaslAuthenticate

namespace Gate

structure Config where
  role : NodeRole
  credentials : PlainCredentials
  /-- Which connections are behind TLS. -/
  tls : Nat → Bool

/-- Where `dispatch` stands. -/
inductive Place where
  | arrived
  | parsed (prelude : RequestPrelude) (apiKey : ApiKey)
  | authorized (prelude : RequestPrelude) (apiKey : ApiKey)
  /-- Hydrating the creator's grants, or waiting for the lifecycle lock. -/
  | admitted (prelude : RequestPrelude) (apiKey : ApiKey) (guard : Option Principal)
  /-- A handler has read who it works for. -/
  | handling (apiKey : ApiKey) (principal guard : Option Principal)
  | returned (apiKey : Option ApiKey) (answer : Answer)
  deriving DecidableEq, Repr

def Place.guard : Place → Option Principal
  | admitted _ _ guard | handling _ _ guard => guard
  | _ => none

structure Call where
  connection : Nat
  frame : List UInt8
  place : Place := .arrived
  deriving DecidableEq, Repr

structure World where
  quota : Option PrincipalQuota := none
  /-- Who is authenticated on each connection. -/
  principals : Nat → Option Principal := fun _ => none
  calls : List Call := []

inductive Action where
  | arrive (connection : Nat) (frame : List UInt8)
  | parse (id : Nat)
  | authorize (id : Nat)
  | admitQuota (id : Nat)
  | handle (id : Nat)
  | finish (id : Nat) (answer : Answer)
  /-- A call panics, or its future is dropped. -/
  | drop (id : Nat)
  | setOverride (principal : Principal) (limit : Option Nat)
  deriving DecidableEq, Repr

/-- `dispatch`, up to where it asks who is calling. -/
def parse (config : Config) (frame : List UInt8) : Place :=
  match (readRequestPrelude ⟨frame, 0⟩).1 with
  | .error _ => .returned none .close
  | .ok prelude => match ApiKey.fromI16 prelude.apiKey with
    | none => .returned none .close
    | some apiKey =>
      if !config.role.allows apiKey then .returned apiKey .close
      else if apiKey ≠ .apiVersions ∧ !supports apiKey prelude.apiVersion then
        .returned apiKey .close
      else if apiKey = .apiVersions then .returned apiKey (.reply .apiVersions)
      else .parsed prelude apiKey

def authorize (principal : Option Principal) (credentialsConfigured : Bool) : Bool :=
  !credentialsConfigured || principal.isSome

def unauthorized (config : Config) (session : Option Principal) (apiKey : ApiKey) : Bool :=
  !(apiKey = .saslHandshake || apiKey = .saslAuthenticate) &&
    !authorize session !config.credentials.isEmpty

namespace World

def place (self : World) (id : Nat) (call : Call) (place : Place) : World :=
  { self with calls := self.calls.set id { call with place } }

/-- A call ends, and drops the guard it may hold. -/
def end_ (self : World) (id : Nat) (call : Call) (apiKey : Option ApiKey) (answer : Answer) :
    World :=
  { self.place id call (.returned apiKey answer) with
    quota := match call.place.guard with
      | some principal => self.quota.map fun quota => quota.release principal
      | none => self.quota }

def admitQuota (self : World) (id : Nat) (call : Call) (prelude : RequestPrelude)
    (apiKey : ApiKey) : World :=
  match self.quota, self.principals call.connection with
  | some quota, some principal =>
    let (quota, admitted) := quota.tryAdmit principal
    if admitted then { self.place id call (.admitted prelude apiKey principal) with quota }
    else { self.place id call (.returned apiKey .close) with quota }
  -- nothing to bound is not a refusal
  | _, _ => self.place id call (.admitted prelude apiKey none)

/-- From the wait for the lifecycle lock into a handler; the two of SASL return at once. -/
def handle (config : Config) (self : World) (id : Nat) (call : Call) (prelude : RequestPrelude)
    (apiKey : ApiKey) (guard : Option Principal) : World :=
  let session := self.principals call.connection
  match requestBody call.frame with
  | none => self.end_ id call apiKey .close
  | some body => match apiKey with
    | .saslHandshake => self.end_ id call apiKey (SaslHandshake.handle body)
    | .saslAuthenticate =>
      let (session, answer) := SaslAuthenticate.handle prelude body (config.tls call.connection)
        config.credentials session
      { self with principals := Function.update self.principals call.connection session }.end_ id
        call apiKey answer
    | _ => self.place id call (.handling apiKey session guard)

def step (config : Config) (self : World) : Action → Option World
  | .arrive connection frame => some { self with calls := self.calls ++ [{ connection, frame }] }
  | .parse id => (self.calls[id]?).bind fun call =>
    if call.place = .arrived then some (self.place id call (parse config call.frame)) else none
  | .authorize id => (self.calls[id]?).bind fun call => match call.place with
    | .parsed prelude apiKey => some (self.place id call
      (if unauthorized config (self.principals call.connection) apiKey then
        .returned apiKey .close
      else .authorized prelude apiKey))
    | _ => none
  | .admitQuota id => (self.calls[id]?).bind fun call => match call.place with
    | .authorized prelude apiKey => some (self.admitQuota id call prelude apiKey)
    | _ => none
  | .handle id => (self.calls[id]?).bind fun call => match call.place with
    | .admitted prelude apiKey guard => some (self.handle config id call prelude apiKey guard)
    | _ => none
  | .finish id answer => (self.calls[id]?).bind fun call => match call.place with
    | .handling apiKey _ _ => if answer = .close ∨ answer = .silent ∨ answer = .reply .handled then
        some (self.end_ id call apiKey answer)
      else none
    | _ => none
  | .drop id => (self.calls[id]?).bind fun call => match call.place with
    | .admitted _ apiKey _ | .handling apiKey _ _ => some (self.end_ id call apiKey .close)
    | _ => none
  | .setOverride principal limit =>
    self.quota.map fun quota => { self with quota := quota.setOverride principal limit }

end World

end Gate

end Oqueue
