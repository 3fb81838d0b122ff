import Praxis.Json
import Praxis.Lib.Effect
import Mathlib.Data.List.AList
import Mathlib.Logic.Function.Basic

/-!
# The JSON-RPC client

A call numbers its request, sends it and takes the next message that comes in for its answer.
Threads that share a client may interleave between the two halves of a call, the sending and the
receiving. The counter of a client does not come to its 64-bit limit.
-/

namespace Praxis

open Effect (Prog)

/-- A `JsonRpcTransport` whose state is an `X`; an empty text means that it has closed. -/
structure JsonRpcTransport (X : Type) where
  send : Str → X → Except Exn Unit × X
  receive : X → Except Exn Str × X

/-- A client and the state of its transport. -/
structure JsonRpcClient (X : Type) where
  next_id : ℤ := 1
  transport : X

namespace JsonRpcClient

variable {X : Type}

def requestJson (id : ℤ) (method : Str) (params : Json) : Json :=
  .ofFields
    [("jsonrpc", .string "2.0"), ("id", .number_integer id), ("method", .string method),
      ("params", params)]

/-- The first half of `call`; the id of the request is returned. -/
def sendRequest (T : JsonText) (P : JsonRpcTransport X) (method : Str) (params : Json) :
    Prog Exn (JsonRpcClient X) ℤ := do
  let id ← Prog.step fun c => (c.next_id, { c with next_id := c.next_id + 1 })
  let payload ← Prog.ofExcept (T.dump (requestJson id method params))
  Prog.of fun c =>
    let sent := P.send payload c.transport
    (sent.1, { c with transport := sent.2 })
  pure id

/-- The result of a response, or its error thrown. -/
def readResponse (T : JsonText) (resp : Json) : Except Exn Json :=
  match resp.field? "error" with
  | none => resp.value .ok "result" (.object [])
  | some error =>
    if error = .null then resp.value .ok "result" (.object [])
    else do
      let what ← T.dump error
      throw (.user what)

/-- What `call` makes of the message it takes. -/
def readAnswer (T : JsonText) (raw : Str) : Except Exn Json :=
  if raw.isEmpty then throw (.user "transport closed during call")
  else
    match T.parse raw with
    | none => throw .parse_error
    | some resp => readResponse T resp

/-- The second half of `call`. -/
def receiveAnswer (T : JsonText) (P : JsonRpcTransport X) : Prog Exn (JsonRpcClient X) Json := do
  let raw ← Prog.of fun c =>
    let received := P.receive c.transport
    (received.1, { c with transport := received.2 })
  Prog.ofExcept (readAnswer T raw)

def call (T : JsonText) (P : JsonRpcTransport X) (method : Str) (params : Json) :
    Prog Exn (JsonRpcClient X) Json := do
  let _ ← sendRequest T P method params
  receiveAnswer T P

def notificationJson (method : Str) (params : Json) : Json :=
  .ofFields [("jsonrpc", .string "2.0"), ("method", .string method), ("params", params)]

def notify (T : JsonText) (P : JsonRpcTransport X) (method : Str) (params : Json) :
    Prog Exn (JsonRpcClient X) Unit := do
  let payload ← Prog.ofExcept (T.dump (notificationJson method params))
  Prog.of fun c =>
    let sent := P.send payload c.transport
    (sent.1, { c with transport := sent.2 })

/-- A function that a client has registered for a method. -/
abbrev Handler := Json → Except Exn Json

def register_handler (handlers : AList fun _ : Str => Handler) (method : Str) (handler : Handler) :
    AList fun _ : Str => Handler :=
  handlers.insert method handler

def responseJson (id result : Json) : Json :=
  .ofFields [("jsonrpc", .string "2.0"), ("id", id), ("result", result)]

/-- Takes the next message and answers it, if a handler is registered for its method. -/
def pump_once (T : JsonText) (P : JsonRpcTransport X) (handlers : AList fun _ : Str => Handler) :
    Prog Exn (JsonRpcClient X) Unit := do
  let raw ← Prog.of fun c =>
    let received := P.receive c.transport
    (received.1, { c with transport := received.2 })
  if raw.isEmpty then pure ()
  else
    let req ← Prog.ofExcept (match T.parse raw with
      | none => .error .parse_error
      | some req => .ok req)
    let method ← Prog.ofExcept (req.value Json.getString "method" [])
    match handlers.lookup method with
    | none => pure ()
    | some handler => do
      let params ← Prog.ofExcept (req.value .ok "params" (.object []))
      let result ← Prog.ofExcept (handler params)
      match req.field? "id" with
      | none | some .null => pure ()
      | some id => do
        let payload ← Prog.ofExcept (T.dump (responseJson id result))
        Prog.of fun c =>
          let sent := P.send payload c.transport
          (sent.1, { c with transport := sent.2 })

end JsonRpcClient

/-! ## Calls on one stream of messages -/

/-- A transport that has been given what will come in. -/
structure StreamTransport where
  sent : List Str := []
  scripted : List Str := []
  deriving DecidableEq

def StreamTransport.transport : JsonRpcTransport StreamTransport where
  send := fun payload t => (.ok (), { t with sent := t.sent ++ [payload] })
  receive := fun t => (.ok (t.scripted.headD []), { t with scripted := t.scripted.tail })

/-- The halves of the calls, in the order in which they are done. -/
inductive RpcStep
  | send (i : ℕ)
  | receive (i : ℕ)
  deriving DecidableEq

/-- How far a call has come. A call that has ended keeps the message it took. -/
inductive CallState
  | idle
  | unsent (e : Exn)
  | waiting (id : ℤ)
  | ended (id : ℤ) (raw : Str) (outcome : Except Exn Json)

/-- The calls of all threads on one client, by number. -/
structure RpcState where
  client : JsonRpcClient StreamTransport
  calls : ℕ → CallState := fun _ => .idle

namespace RpcState

open JsonRpcClient

/-- The state after a half of a call, if the call is about to do it. -/
def step (T : JsonText) (request : ℕ → Str × Json) (s : RpcState) : RpcStep → Option RpcState
  | .send i =>
    match s.calls i with
    | .idle =>
      let sent :=
        (sendRequest T StreamTransport.transport (request i).1 (request i).2).exec s.client
      some
        { client := sent.2
          calls := Function.update s.calls i <| match sent.1 with
            | .ok id => .waiting id
            | .error e => .unsent e }
    | _ => none
  | .receive i =>
    match s.calls i with
    | .waiting id =>
      let received := (receiveAnswer T StreamTransport.transport).exec s.client
      some
        { client := received.2
          calls := Function.update s.calls i <|
            .ended id (s.client.transport.scripted.headD []) received.1 }
    | _ => none

/-- The state after so many halves of calls, all of them possible. -/
def steps (T : JsonText) (request : ℕ → Str × Json) : RpcState → List RpcStep → Option RpcState
  | s, [] => some s
  | s, a :: schedule => (s.step T request a).bind fun s => steps T request s schedule

/-- A new client on a stream. -/
def start (stream : List Str) : RpcState where
  client := { transport := { scripted := stream } }

end RpcState

/-! ## Whose message is it -/

/-- The value of an id. -/
def Json.idNumber : Json → Option ℤ
  | .number_integer i => some i
  | .number_unsigned n => some n
  | _ => none

/-- A response to the request with the id: a notification has no id and a server's request has a
method. -/
def respondsTo (id : ℤ) (m : Json) : Bool :=
  !m.contains "method" && (m.field? "id").bind Json.idNumber == some id

end Praxis
