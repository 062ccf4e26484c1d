import LinuxProgramming.SeqnumServer

/-! The sequence-number service over FIFOs and over POSIX message queues. The two clients and
the two servers have the same shape; what differs is put together in a `Transport`: what the
calls return, and what the programs do about it. Each client is one process, its channel is
named after its pid, and no call fails unless POSIX requires it. -/
namespace SeqnumTransports

open SeqnumServer (CInt Request Response)
open TransitionSystems

def requestSize : ℕ := 8

def responseSize : ℕ := 4

structure Transport where
  /-- What a successful send of that many bytes returns. -/
  sent : ℕ → Int
  /-- What a receive returns, from the size of the buffer, the message size of the channel and
  the message at its head; it waits where there is nothing to return. -/
  received : ℕ → ℕ → Option ℕ → Option Int
  /-- The message size of the channel of a client. -/
  clientMsgSize : ℕ
  /-- How many requests the channel of the server holds. -/
  capacity : ℕ
  /-- The client opens its channel for reading after the request, and the server waits for that. -/
  opensLate : Bool
  /-- The test of the server on what its receive returned. -/
  requestOk : Int → Bool
  /-- Whether the server exits when that test fails; otherwise it drops the request. -/
  exitsOnError : Bool

/-- `write` returns the number of bytes written, and `read` what fits into the buffer. -/
def fifo (capacity : ℕ) : Transport where
  sent n := n
  received buffer _ message := message.map fun n => (min buffer n : ℕ)
  clientMsgSize := 0
  capacity := capacity
  opensLate := true
  requestOk got := got == requestSize
  exitsOnError := false

/-- `mq_send` returns 0, and `mq_receive` refuses a buffer below the message size. The queue
of a client is created without attributes, so it gets the default message size. -/
def mq (defaultMsgSize : ℕ) : Transport where
  sent _ := 0
  received buffer msgSize message :=
    if buffer < msgSize then some (-1) else message.map fun n => (n : ℕ)
  clientMsgSize := defaultMsgSize
  capacity := 10
  opensLate := false
  requestOk got := got != -1
  exitsOnError := true

inductive Exit where
  | failure
  | success (printed : CInt)
  deriving DecidableEq

inductive ClientPc where
  | create
  | openServer
  | send
  | openOwn
  | receive
  | exited (status : Exit)
  deriving DecidableEq

inductive ServerPc where
  | receive
  | openClient (req : Request)
  | send (req : Request)
  | close (req : Request)
  | exited
  deriving DecidableEq

/-- The clients and their channels by pid, the channel of the server, and the requests in the
order in which the server received them, which no step reads. -/
structure System where
  client : CInt → ClientPc
  channel : CInt → Option (List Response)
  requests : List Request
  server : ServerPc
  seqNum : CInt
  served : List Request

def initial : System := ⟨fun _ => .create, fun _ => none, [], .receive, 0, []⟩

namespace System

def moveTo (s : System) (pid : CInt) (pc : ClientPc) : System :=
  { s with client := Function.update s.client pid pc }

/-- The handler set with `atexit` removes the channel. -/
def exit (s : System) (pid : CInt) (status : Exit) : System :=
  { s with
    client := Function.update s.client pid (.exited status)
    channel := Function.update s.channel pid none }

def pending (s : System) (pid : CInt) : Option Response := (s.channel pid).bind List.head?

end System

def afterSend (T : Transport) (req : Request) (s : System) : System :=
  if T.sent requestSize ≠ requestSize then s.exit req.pid .failure
  else s.moveTo req.pid (if T.opensLate then .openOwn else .receive)

def clientStep (T : Transport) (req : Request) (s : System) : Option System :=
  match s.client req.pid with
  | .create =>
    some { s.moveTo req.pid .openServer with
      channel := Function.update s.channel req.pid (some []) }
  | .openServer => some (s.moveTo req.pid .send)
  | .send =>
    if s.requests.length < T.capacity then
      some (afterSend T req { s with requests := s.requests ++ [req] })
    else none
  | .openOwn => some (s.moveTo req.pid .receive)
  | .receive =>
    match T.received responseSize T.clientMsgSize ((s.pending req.pid).map fun _ => responseSize),
      s.pending req.pid with
    | none, _ => none
    | some got, none => if got ≠ responseSize then some (s.exit req.pid .failure) else none
    | some got, some resp =>
      if got ≠ responseSize then some (s.exit req.pid .failure)
      else some (s.exit req.pid (.success resp.seqNum))
  | .exited _ => none

/-- A response that was not sent whole is only reported, so its result is not kept. -/
def serverStep (T : Transport) (s : System) : Option System :=
  match s.server with
  | .receive =>
    match T.received requestSize requestSize (s.requests.head?.map fun _ => requestSize),
      s.requests with
    | none, _ => none
    | some got, [] =>
      if T.requestOk got then none
      else if T.exitsOnError then some { s with server := .exited } else some s
    | some got, req :: rest =>
      if T.requestOk got then
        some { s with requests := rest, server := .openClient req, served := s.served ++ [req] }
      else if T.exitsOnError then some { s with server := .exited }
      else some { s with requests := rest }
  | .openClient req =>
    match s.channel req.pid with
    | none => some { s with server := .receive }
    | some _ =>
      if T.opensLate ∧ s.client req.pid ≠ .receive then none
      else some { s with server := .send req }
  | .send req =>
    some { s with
      server := .close req
      channel := Function.update s.channel req.pid
        ((s.channel req.pid).map fun rs => rs ++ [⟨s.seqNum⟩]) }
  | .close req => some { s with server := .receive, seqNum := s.seqNum + req.seqLen }
  | .exited => none

inductive Event where
  | client (req : Request)
  | server
  deriving DecidableEq

def step (T : Transport) (clients : List Request) (s : System) : Event → Option System
  | .client req => if req ∈ clients then clientStep T req s else none
  | .server => serverStep T s

def Step (T : Transport) (clients : List Request) (s : System) (e : Event) (t : System) : Prop :=
  step T clients s e = some t

end SeqnumTransports
