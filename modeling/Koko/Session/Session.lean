import Koko.Session.ConstructResponse

/-! The asynchronous cycle of a session: `do_read`, `on_read`, `finished_write`, and the
handshake of the SSL session. A run is a sequence of completions of operations in flight. -/
namespace Koko.Session
open Koko.Lib Koko.Http Koko.Handlers

/-- How a read ends; a request comes with the world and the request log it finds. -/
inductive ReadOutcome where
  | request (request : Request) (env : Environment) (log : SharedLog)
  | timeout
  | endOfStream
  | otherError

/-- An asynchronous operation; a write carries the argument bound to its completion handler. -/
inductive Operation where
  | handshake
  | read
  | write (close : Bool)
deriving DecidableEq

/-- What can be seen of a session. -/
inductive Event where
  | handshakeStarted
  | handshakeDone (ok : Bool)
  | readStarted
  | readDone (outcome : ReadOutcome)
  | writeStarted (res : Response)
  | writeDone (ok : Bool)

inductive Transport where
  | tcp | ssl
deriving DecidableEq

/-- What a session is given: its table, reads past a target, and `need_eof` of the library. -/
structure Setting where
  urlToHandler : Table RequestHandler
  beyond : Nat → Byte
  needEof : Response → Bool

/-- The argument bound to the completion handler of a response's write. -/
def closes (setting : Setting) (res : Response) : Bool :=
  if res.get? connectionField = some closeValue then true else setting.needEof res

structure SessionState where
  name : Bytes
  res : Response
  outstanding : List Operation
  trace : List Event

namespace SessionState

/-- `async_read_stream`, after the request and the timeout are reset. -/
def doRead (s : SessionState) : SessionState :=
  { s with outstanding := s.outstanding ++ [.read], trace := s.trace ++ [.readStarted] }

def asyncWriteStream (s : SessionState) (close : Bool) : SessionState :=
  { s with outstanding := s.outstanding ++ [.write close], trace := s.trace ++ [.writeStarted s.res] }

/-- The response is written, and the connection kept or not. -/
def respond (setting : Setting) (s : SessionState) (res : Response) : SessionState :=
  { s with res }.asyncWriteStream (closes setting res)

def doHandshake (s : SessionState) : SessionState :=
  { s with outstanding := s.outstanding ++ [.handshake], trace := s.trace ++ [.handshakeStarted] }

def afterHandshake (s : SessionState) (ok : Bool) : SessionState := if ok then s.doRead else s

def onRead (setting : Setting) (s : SessionState) : ReadOutcome → Except Exn SessionState
  | .timeout => .ok s
  | .endOfStream => .ok s
  | .otherError => .ok ({ s with res := badRequest }.asyncWriteStream true)
  | .request request env log => do
    let answer ← constructResponse setting.beyond setting.urlToHandler env log s.name request
    return { s with name := answer.name }.respond setting answer.response

def finishedWrite (s : SessionState) (close ok : Bool) : SessionState :=
  if !ok then s else if close then s else { s with res := newResponse 200 }.doRead

def start : Transport → SessionState
  | .tcp => doRead ⟨ascii "sessionTCP: ", newResponse 200, [], []⟩
  | .ssl => doHandshake ⟨ascii "sessionSSL: ", newResponse 200, [], []⟩

/-- An operation in flight comes to its end. -/
def complete (s : SessionState) (operation : Operation) (event : Event) : Option SessionState :=
  if operation ∈ s.outstanding then
    some { s with outstanding := s.outstanding.erase operation, trace := s.trace ++ [event] }
  else none

end SessionState

inductive Completion where
  | handshake (ok : Bool)
  | read (outcome : ReadOutcome)
  | write (close ok : Bool)

/-- One completion and what its handler does; there is none if nothing such is in flight or
the handler throws. -/
def step (setting : Setting) (s : SessionState) : Completion → Option SessionState
  | .handshake ok => do
    let s ← s.complete .handshake (.handshakeDone ok)
    return s.afterHandshake ok
  | .read outcome => do
    let s ← s.complete .read (.readDone outcome)
    (s.onRead setting outcome).toOption
  | .write close ok => do
    let s ← s.complete (.write close) (.writeDone ok)
    return s.finishedWrite close ok

def run (setting : Setting) (transport : Transport) (completions : List Completion) : Option SessionState :=
  completions.foldlM (step setting) (SessionState.start transport)

end Koko.Session
