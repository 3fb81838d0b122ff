import Praxis.Json
import Praxis.Url

/-!
# The session of an SSE transport

Messages go to the server by POST requests, one for each. A reply may name a session, which the
transport then puts into the URLs of its requests. The stream of events that it reads beside them is
in `Praxis.Sse`.
-/

namespace Praxis

/-- A reply, with what the client library's `headers.find` says of each name. -/
structure HttpReply where
  status : ℕ
  find : Str → Option Str

/-- A request of a transport. -/
inductive HttpRequest
  | get (url : Str)
  | post (url payload : Str)
  | delete (url : Str)
  deriving DecidableEq

/-- The members of an `SseTransport` that decide where its requests go. -/
structure SseSession where
  post_endpoint : Str
  get_endpoint : Str
  session_id : Str := []
  deriving DecidableEq

namespace SseSession

variable {H : Type}

/-- As `attach_sse_url` makes one of the URL. -/
def ofUrl (parsed : ParsedUrl) : SseSession where
  post_endpoint := parsed.path
  get_endpoint := parsed.path

def url (endpoint session_id : Str) : Str :=
  if session_id.isEmpty then endpoint else endpoint ++ "/" ++ session_id

/-- The request of `start_event_thread`. -/
def start_event_thread (t : SseSession) : HttpRequest := .get (url t.get_endpoint t.session_id)

/-- The session of a reply, once its status is good. -/
def adopt (t : SseSession) (reply : HttpReply) : SseSession :=
  if t.session_id.isEmpty then
    match (reply.find "Mcp-Session-Id").or (reply.find "mcp-session-id") with
    | none => t
    | some id => { t with session_id := id }
  else t

/-- `send`, before a server that answers each request or does not: what it returns, the transport
and the request. -/
def send (server : HttpRequest → H → Option HttpReply × H) (payload : Str) (t : SseSession)
    (h : H) : Except Exn Unit × SseSession × HttpRequest × H :=
  let request := .post (url t.post_endpoint t.session_id) payload
  let answered := server request h
  match answered.1 with
  | none => (.error (.user "sse transport: post failed"), t, request, answered.2)
  | some reply =>
    if reply.status < 200 ∨ 300 ≤ reply.status then
      (.error (.user ("sse transport: post status " ++ decimal reply.status)), t, request,
        answered.2)
    else (.ok (), t.adopt reply, request, answered.2)

/-- The last request, after the event thread has ended. -/
def close (t : SseSession) : Option HttpRequest :=
  if t.session_id.isEmpty then none else some (.delete (url t.post_endpoint t.session_id))

end SseSession

end Praxis
