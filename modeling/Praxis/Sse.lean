import Praxis.Bytes
import Praxis.Lib.Framing
import Praxis.Lib.Text

/-!
# The event stream of a remote server

A thread of the transport reads the stream chunk by chunk, cuts it into frames and queues their
data. `receive` takes the data off the queue; while there is none it waits, unless the stream has
ended or the transport closes. The thread, the callers of `receive`, the constructor and the
destructor take their steps in any order, those under the lock in one piece.
-/

namespace Praxis

open Framing (Splitter)

structure SseFrame where
  data : Str := []
  deriving DecidableEq

/-- What a line adds to a frame. -/
def SseFrame.read_line (out : SseFrame) (line : Str) : SseFrame :=
  let line := if line.getLast? = some 13 then line.dropLast else line
  if starts_with "data:" line then
    let payload := line.drop 5
    let payload := if payload.head? = some 32 then payload.tail else payload
    { data := (if out.data.isEmpty then [] else out.data ++ lit "\n") ++ payload }
  else out

def parse_frame (raw : Str) : SseFrame := (Text.lines 10 raw).foldl SseFrame.read_line {}

/-- A round of the loop of `on_chunk`: the frame before the first empty line, and the buffer without
the two. -/
def next_frame : Splitter UInt8 SseFrame := .bySeparator "\n\n" (by decide) parse_frame

/-- The frames that a call of `on_chunk` pushes, and the buffer that it leaves. -/
def on_chunk (buffer data : Str) : List SseFrame × Str := next_frame.drain (buffer ++ data)

/-- The frames that calls of `on_chunk` push, one after the other. -/
def on_chunks : Str → List Str → List SseFrame
  | _, [] => []
  | buffer, data :: chunks =>
    let split := on_chunk buffer data
    split.1 ++ on_chunks split.2 chunks

/-- What the thread and the callers share. -/
structure SseTransport where
  queue : List Str := []
  closing : Bool := false
  stream_alive : Bool := false
  deriving DecidableEq

namespace SseTransport

def push_frame (frame : SseFrame) (t : SseTransport) : SseTransport :=
  if frame.data.isEmpty then t else { t with queue := t.queue ++ [frame.data] }

def push_eof (t : SseTransport) : SseTransport := { t with stream_alive := false }

/-- What `receive` waits for. -/
def ready (t : SseTransport) : Bool := !t.queue.isEmpty || t.closing || !t.stream_alive

/-- Nothing if the caller goes on waiting. -/
def receive (t : SseTransport) : Option (Str × SseTransport) :=
  if t.ready then
    match t.queue with
    | [] => some ([], t)
    | out :: queue => some (out, { t with queue := queue })
  else none

end SseTransport

/-! ## The parties -/

/-- Where the event thread is, with its buffer. -/
inductive EventThread
  /-- It waits for a chunk. -/
  | reading (buffer : Str)
  /-- It is in the loop of `on_chunk`. -/
  | splitting (buffer : Str)
  | ended
  deriving DecidableEq

/-- A transport whose constructor has started the event thread, with what has happened: the chunks
that have come in, the frames that have been pushed and the strings that `receive` has returned. -/
structure SseSystem where
  transport : SseTransport := {}
  thread : EventThread := .reading []
  constructed : Bool := false
  chunks : List Str := []
  pushed : List SseFrame := []
  received : List Str := []
  deriving DecidableEq

inductive SseStep
  /-- The last statement of the constructor. -/
  | construct
  | chunk (data : Str)
  /-- A round of the loop of `on_chunk` that finds a frame. -/
  | frame
  /-- The round that finds none. -/
  | leave
  /-- The stream ends. -/
  | eof
  /-- Some caller's `receive`, as soon as it does not wait. -/
  | receive
  /-- The destructor's first statement. -/
  | close
  deriving DecidableEq

namespace SseSystem

/-- The system after the step, if it can be taken. -/
def step (s : SseSystem) : SseStep → Option SseSystem
  | .construct =>
    if s.constructed then none
    else
      let t := s.transport
      some { s with constructed := true, transport := { t with stream_alive := true } }
  | .chunk data =>
    match s.thread with
    | .reading buffer =>
      some { s with thread := .splitting (buffer ++ data), chunks := s.chunks ++ [data] }
    | _ => none
  | .frame =>
    match s.thread with
    | .splitting buffer =>
      (next_frame.next buffer).map fun found =>
        { s with
          thread := .splitting found.2
          transport := s.transport.push_frame found.1
          pushed := s.pushed ++ [found.1] }
    | _ => none
  | .leave =>
    match s.thread with
    | .splitting buffer =>
      if (next_frame.next buffer).isNone then some { s with thread := .reading buffer } else none
    | _ => none
  | .eof =>
    match s.thread with
    | .reading _ => some { s with thread := .ended, transport := s.transport.push_eof }
    | _ => none
  | .receive =>
    if s.constructed then
      s.transport.receive.map fun got =>
        { s with transport := got.2, received := s.received ++ [got.1] }
    else none
  | .close =>
    let t := s.transport
    if s.constructed then some { s with transport := { t with closing := true } } else none

/-- The system after so many steps, all of them possible. -/
def steps : SseSystem → List SseStep → Option SseSystem
  | s, [] => some s
  | s, a :: as => (s.step a).bind fun s => steps s as

end SseSystem

end Praxis
