import Oqueue.Codec.Flex
import Oqueue.Library.Sequenced
import Oqueue.Library.Steps

/-!
# One client connection

Frames are read while earlier requests are still handled, every request is handled by a task of
its own, and the responses are written in the order of the requests. A reader, a writer and
whoever waits for both take their steps in any order; the tasks end in any order.
-/

namespace Oqueue.Connection

open Bytes Codec

structure ConnectionLimits where
  maxFrame : Nat
  maxInFlight : Nat
  deriving DecidableEq, Repr

def ConnectionLimits.inFlight (self : ConnectionLimits) : Nat := max self.maxInFlight 1

inductive HandlerResponse where
  | reply (response : List UInt8)
  | silent
  | close
  deriving DecidableEq, Repr

inductive IoError where
  | unexpectedEof
  | other (message : String)
  deriving DecidableEq, Repr

inductive ConnectionEnd where
  | timedOut (waitingFor : String)
  | frameTooLarge (declared : Nat)
  | negativeFrameSize (declared : Int)
  | io (error : IoError)
  | handlerPanicked
  /-- The reader or the writer died. -/
  | connectionTaskFailed
  deriving DecidableEq, Repr

inductive Outcome where
  | running
  | panicked
  | responded (response : HandlerResponse)
  deriving DecidableEq, Repr

structure Task where
  request : List UInt8
  outcome : Outcome := .running
  deriving DecidableEq, Repr

/-- Where `read_frames` waits. -/
inductive Reader where
  | sizing
  | body (size : Nat)
  | acquiring (body : List UInt8)
  | sending (sequence task : Nat)
  | ended (result : Except ConnectionEnd Unit)
  | aborted
  deriving DecidableEq

inductive WriterEnd where
  | drained
  | handlerClosed
  deriving DecidableEq, Repr

/-- Where `write_in_order` waits. -/
inductive Writer where
  | receiving
  | joining (task : Nat)
  | writing (frame : List UInt8)
  | flushing (end_ : WriterEnd)
  | ended (result : Except ConnectionEnd WriterEnd)
  /-- An assertion of its own failed. -/
  | panicked
  | aborted
  deriving DecidableEq

/-- Where `serve_connection` waits. -/
inductive Main where
  | selecting
  /-- The reader ended first. -/
  | awaitingWriter (read : Except ConnectionEnd Unit)
  /-- The writer drained first. -/
  | awaitingReader
  | returned (result : Except ConnectionEnd Unit)
  /-- The future was dropped. -/
  | dropped
  deriving DecidableEq

structure World where
  reader : Reader := .sizing
  sequence : Nat := 0
  writer : Writer := .receiving
  expected : Nat := 0
  main : Main := .selecting
  /-- A sequence number, and whose result it stands for. -/
  done : List (Nat × Nat) := []
  tasks : List Task := []
  /-- What arrived and is not read. -/
  inbound : List UInt8 := []
  /-- Whether the peer has closed its side. -/
  closed : Bool := false
  outbound : List UInt8 := []
  /-- Everything that arrived; kept for the proofs. -/
  received : List UInt8 := []
  deriving DecidableEq

inductive Action where
  | arrive (bytes : List UInt8)
  | peerCloses
  | readSize
  | readBody
  | readTimesOut
  | readFails (error : IoError)
  | acquire
  | send
  | finish (task : Nat) (response : HandlerResponse)
  | panic (task : Nat)
  | receive
  | join
  | write (count : Nat)
  | writeTimesOut
  | flush
  | writeFails (error : IoError)
  | selectReader
  | selectWriter
  | settle
  | drop
  | abortReader
  | abortWriter
  deriving DecidableEq

/-- `write_frame`, of what fits. -/
def frame (body : List UInt8) : List UInt8 := putI32 body.length ++ body

def Reader.gone : Reader → Bool
  | ended _ | aborted => true
  | _ => false

def Writer.gone : Writer → Bool
  | ended _ | panicked | aborted => true
  | _ => false

def Main.over : Main → Bool
  | returned _ | dropped => true
  | _ => false

/-- How a finished task writes to the connection: `none` where nothing after it is written. -/
def Outcome.written : Outcome → Option (List UInt8)
  | responded (.reply response) =>
    if response.length ≤ Codec.i32Max then some (frame response) else none
  | responded .silent => some []
  | responded .close | running | panicked => none

/-- The responses in the order of the requests, up to the first that is not there. -/
def wire (tasks : List Task) : List UInt8 :=
  Sequenced.emitted (fun task => task.outcome.written) tasks

namespace World

def running (self : World) : Nat := self.tasks.countP fun task => task.outcome = .running

variable (limits : ConnectionLimits) (self : World)

def readSize : Option World :=
  if self.reader = .sizing then
    if 4 ≤ self.inbound.length then
      let declared := castSigned 32 (fromBeBytes (self.inbound.take 4))
      let self := { self with inbound := self.inbound.drop 4 }
      if declared < 0 then
        some { self with reader := .ended (.error (.negativeFrameSize declared)) }
      else if limits.maxFrame < declared.toNat then
        some { self with reader := .ended (.error (.frameTooLarge declared.toNat)) }
      else some { self with reader := .body declared.toNat }
    else if self.closed then some { self with reader := .ended (.ok ()) }
    else none
  else none

def readBody : Option World := match self.reader with
  | .body size =>
    if size ≤ self.inbound.length then
      some { self with
        reader := .acquiring (self.inbound.take size)
        inbound := self.inbound.drop size }
    else if self.closed then some { self with reader := .ended (.error (.io .unexpectedEof)) }
    else none
  | _ => none

def readTimesOut : Option World := match self.reader with
  | .sizing => some { self with reader := .ended (.error (.timedOut "frame")) }
  | .body _ => some { self with reader := .ended (.error (.timedOut "body")) }
  | _ => none

def readFails (error : IoError) : Option World := match self.reader with
  -- an error of that kind is the end of the stream
  | .sizing => if error = .unexpectedEof then none
    else some { self with reader := .ended (.error (.io error)) }
  | .body _ => some { self with reader := .ended (.error (.io error)) }
  | _ => none

/-- No permit, no further reads. -/
def acquire : Option World := match self.reader with
  | .acquiring body =>
    if self.running < limits.inFlight then
      some { self with
        tasks := self.tasks ++ [{ request := body }]
        reader := .sending self.sequence self.tasks.length }
    else none
  | _ => none

def send : Option World := match self.reader with
  | .sending sequence task =>
    if self.writer.gone then some { self with reader := .ended (.ok ()) }
    else if self.done.length < limits.inFlight then
      some { self with
        done := self.done ++ [(sequence, task)]
        sequence := sequence + 1
        reader := .sizing }
    else none
  | _ => none

/-- A task comes to its end. -/
def finish (task : Nat) (outcome : Outcome) : Option World :=
  (self.tasks[task]?).bind fun one =>
    if one.outcome = .running then
      some { self with tasks := self.tasks.set task { one with outcome } }
    else none

def receive : Option World :=
  if self.writer = .receiving then match self.done with
    | (sequence, task) :: done =>
      if sequence = self.expected then
        some { self with done, expected := self.expected + 1, writer := .joining task }
      else some { self with done, writer := .panicked }
    | [] => if self.reader.gone then some { self with writer := .flushing .drained } else none
  else none

def join : Option World := match self.writer with
  | .joining task => (self.tasks[task]?).bind fun one => match one.outcome with
    | .running => none
    | .panicked => some { self with writer := .ended (.error .handlerPanicked) }
    | .responded .silent => some { self with writer := .receiving }
    | .responded .close => some { self with writer := .flushing .handlerClosed }
    | .responded (.reply response) =>
      if response.length ≤ Codec.i32Max then some { self with writer := .writing (frame response) }
      else some { self with
        writer := .ended (.error (.io (.other "response body over i32::MAX"))) }
  | _ => none

/-- The socket takes some of a frame. -/
def write (count : Nat) : Option World := match self.writer with
  | .writing left =>
    if 0 < count ∧ count ≤ left.length then
      some { self with
        outbound := self.outbound ++ left.take count
        writer := if count = left.length then .receiving else .writing (left.drop count) }
    else none
  | _ => none

def flush : Option World := match self.writer with
  | .flushing end_ => some { self with writer := .ended (.ok end_) }
  | _ => none

def writeFails (error : IoError) : Option World := match self.writer with
  | .writing _ | .flushing _ => some { self with writer := .ended (.error (.io error)) }
  | _ => none

def writeTimesOut : Option World := match self.writer with
  | .writing _ => some { self with writer := .ended (.error (.timedOut "write")) }
  | _ => none

def selectWriter : Option World :=
  if self.main = .selecting then match self.writer with
    | .ended (.ok .drained) => some { self with main := .awaitingReader }
    | .ended (.ok .handlerClosed) => some { self with main := .returned (.ok ()) }
    | .ended (.error e) => some { self with main := .returned (.error e) }
    | .panicked | .aborted => some { self with main := .returned (.error .connectionTaskFailed) }
    | _ => none
  else none

def settle : Option World := match self.main with
  | .awaitingWriter read => match self.writer with
    | .ended result => some { self with main := .returned do
        read
        result.map fun _ => () }
    | .panicked | .aborted => some { self with main := .returned (.error .connectionTaskFailed) }
    | _ => none
  | .awaitingReader => match self.reader with
    | .ended result => some { self with main := .returned result }
    | .aborted => some { self with main := .returned (.error .connectionTaskFailed) }
    | _ => none
  | _ => none

def selectReader : Option World :=
  if self.main = .selecting then match self.reader with
    | .ended result => some { self with main := .awaitingWriter result }
    | .aborted => some { self with main := .returned (.error .connectionTaskFailed) }
    | _ => none
  else none

def step : Action → Option World
  | .arrive bytes => if self.closed then none
    else some { self with inbound := self.inbound ++ bytes, received := self.received ++ bytes }
  | .peerCloses => some { self with closed := true }
  | .readSize => self.readSize limits
  | .readBody => self.readBody
  | .readTimesOut => self.readTimesOut
  | .readFails error => self.readFails error
  | .acquire => self.acquire limits
  | .send => self.send limits
  | .finish task response => self.finish task (.responded response)
  | .panic task => self.finish task .panicked
  | .receive => self.receive
  | .join => self.join
  | .write count => self.write count
  | .writeTimesOut => self.writeTimesOut
  | .flush => self.flush
  | .writeFails error => self.writeFails error
  | .selectReader => self.selectReader
  | .selectWriter => self.selectWriter
  | .settle => self.settle
  | .drop => if self.main.over then none else some { self with main := .dropped }
  -- the guards abort what still runs, which ends at its next await
  | .abortReader => if self.main.over && !self.reader.gone then
      some { self with reader := .aborted } else none
  | .abortWriter => if self.main.over && !self.writer.gone then
      some { self with writer := .aborted } else none

end World

end Oqueue.Connection
