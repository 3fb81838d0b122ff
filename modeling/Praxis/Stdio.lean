import Praxis.JsonRpc
import Praxis.Lib.Framing

/-!
# A server behind pipes

The transport to a child process: a message goes to the child's input as a line, and lines come
back. How much a `write` takes and what a `read` brings is up to the kernel, so both are given in
the order of the calls.
-/

namespace Praxis

/-- The parent's ends of the two pipes, before the calls to come. -/
structure Pipes where
  /-- How much each `write` takes of what it is offered, 0 where it fails. Those that are not listed
  fail. -/
  takes : List ℕ := []
  /-- What each `read` brings, nothing at the end of the file or where it fails. -/
  brings : List Str := []
  /-- All that has been taken. -/
  taken : Str := []
  deriving DecidableEq

namespace Pipes

def write (bytes : Str) (pipes : Pipes) : ℕ × Pipes :=
  let n := min (pipes.takes.headD 0) bytes.length
  (n, { pipes with takes := pipes.takes.tail, taken := pipes.taken ++ bytes.take n })

def read (pipes : Pipes) : Str × Pipes :=
  (pipes.brings.headD [], { pipes with brings := pipes.brings.tail })

/-- The loop of `send`. -/
def writeAll (p : Str) (pipes : Pipes) : Except Exn Unit × Pipes :=
  if p = [] then (.ok (), pipes)
  else if (pipes.write p).1 = 0 then (.error (.user "stdio write failed"), (pipes.write p).2)
  else writeAll (p.drop (pipes.write p).1) (pipes.write p).2
termination_by p.length
decreasing_by
  have hpos := List.length_pos_of_ne_nil ‹¬p = []›
  rw [List.length_drop]
  omega

end Pipes

def newline : UInt8 := 10

structure PosixStdioTransport where
  buffer : Str := []
  line : Str := []
  pipes : Pipes
  deriving DecidableEq

namespace PosixStdioTransport

/-- Whether the newline is taken is not looked at. -/
def send (payload : Str) (t : PosixStdioTransport) : Except Exn Unit × PosixStdioTransport :=
  match t.pipes.writeAll payload with
  | (.error e, pipes) => (.error e, { t with pipes := pipes })
  | (.ok (), pipes) => (.ok (), { t with pipes := (pipes.write [newline]).2 })

/-- A buffer without a newline is popped as a whole. -/
def pop_line (t : PosixStdioTransport) : Str × PosixStdioTransport :=
  match Framing.find [newline] t.buffer with
  | none => (t.buffer, { t with buffer := [] })
  | some pos => (t.buffer.take pos, { t with buffer := t.buffer.drop (pos + 1) })

/-- Nothing sets `line`, so what is left in the buffer waits for another `read`. -/
def receive (t : PosixStdioTransport) : Str × PosixStdioTransport :=
  if t.line ≠ [] then (t.line, { t with line := [] })
  else
    let got := t.pipes.read
    if got.1 = [] then ([], { t with pipes := got.2 })
    else pop_line { t with buffer := t.buffer ++ got.1, pipes := got.2 }

def transport : JsonRpcTransport PosixStdioTransport where
  send := send
  receive := fun t => (.ok t.receive.1, t.receive.2)

end PosixStdioTransport

end Praxis
