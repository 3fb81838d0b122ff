import Praxis.Bytes
import Praxis.Lib.Framing

/-!
# The URL of a remote server

`attach_sse_url` takes a URL apart and gives the pieces to an HTTP client and a transport. What the
transport does with them is in `Praxis.Sse`. The fields of `ParsedUrl` are the source's, though
`base` and `tls` are not looked at again.
-/

namespace Praxis

/-- What `parse_url` throws: its own error, or one of `std::stoi`. -/
inductive UrlError
  | runtime_error (what : Str)
  | invalid_argument
  | out_of_range
  deriving DecidableEq

def isspace (c : UInt8) : Bool := c == 32 || (9 ≤ c && c ≤ 13)

def isdigit (c : UInt8) : Bool := 48 ≤ c && c ≤ 57

def digits_value (digits : Str) : ℕ := digits.foldl (fun n d => 10 * n + (d.toNat - 48)) 0

/-- Whether a minus is there, and what follows the sign if there is one. -/
def take_sign : Str → Bool × Str
  | 45 :: s => (true, s)
  | 43 :: s => (false, s)
  | s => (false, s)

/-- The number after blanks and a sign, whatever follows it. -/
def stoi (s : Str) : Except UrlError ℤ :=
  let signed := take_sign (s.dropWhile isspace)
  let digits := signed.2.takeWhile isdigit
  if digits.isEmpty then .error .invalid_argument
  else
    let n : ℤ := if signed.1 then -(digits_value digits : ℤ) else digits_value digits
    if n < -2 ^ 31 ∨ 2 ^ 31 ≤ n then .error .out_of_range else .ok n

example : stoi " +80x" = .ok 80 := by decide

structure ParsedUrl where
  base : Str := []
  host : Str := []
  port : ℤ := 0
  tls : Bool := false
  path : Str := []
  deriving DecidableEq

/-- The authority and the path of what follows the scheme. -/
def split_path (rest : Str) : Str × Str :=
  match Framing.find (lit "/") rest with
  | none => (rest, lit "/")
  | some path_pos =>
    let path := rest.drop path_pos
    (rest.take path_pos, if path.isEmpty then lit "/" else path)

/-- The host and the port of an authority. -/
def split_port (tls : Bool) (host_port : Str) : Except UrlError (Str × ℤ) :=
  match Framing.find (lit ":") host_port with
  | none => .ok (host_port, if tls then 443 else 80)
  | some colon =>
    (stoi (host_port.drop (colon + 1))).map fun port => (host_port.take colon, port)

def parse_url (url : Str) : Except UrlError ParsedUrl :=
  match Framing.find (lit "://") url with
  | none => .error (.runtime_error (lit "invalid url (no scheme): " ++ url))
  | some scheme_end =>
    let tls := url.take scheme_end == lit "https"
    let split := split_path (url.drop (scheme_end + 3))
    (split_port tls split.1).map fun named =>
      { base := url.take (scheme_end + 3) ++ split.1
        host := named.1
        port := named.2
        tls := tls
        path := split.2 }

/-! ## `attach_sse_url` -/

/-- Where the requests of a client go. -/
structure Connection where
  host : Str
  port : ℤ
  tls : Bool
  deriving DecidableEq

/-- What is used of httplib: the constructor of a client, and where a client connects. -/
structure httplib (C : Type) where
  Client : Str → ℤ → C
  connection : C → Connection

variable {C : Type}

/-- `httplib::Client(host, port)` connects without TLS. -/
def httplib.PlainHttp (L : httplib C) : Prop :=
  ∀ host port, L.connection (L.Client host port) = { host := host, port := port, tls := false }

/-- What the constructor of `SseTransport` is given. -/
structure SseEndpoint (C : Type) where
  client : C
  post_endpoint : Str
  get_endpoint : Str
  session_id : Str
  deriving DecidableEq

/-- `attach_sse_url` up to the call of `attach`. -/
def attach_sse_url (L : httplib C) (url : Str) : Except UrlError (SseEndpoint C) :=
  (parse_url url).map fun parsed =>
    { client := L.Client parsed.host parsed.port
      post_endpoint := parsed.path
      get_endpoint := parsed.path
      session_id := [] }

end Praxis
