import Praxis.Bytes
import Praxis.Lib.Framing

/-!
# The credentials of the web panel
-/

namespace Praxis

/-- The 6-bit value of a base64 character, 0xff for an invalid one. -/
def b64_value (c : UInt8) : UInt8 :=
  if 65 ≤ c ∧ c ≤ 90 then c - 65
  else if 97 ≤ c ∧ c ≤ 122 then 26 + c - 97
  else if 48 ≤ c ∧ c ≤ 57 then 52 + c - 48
  else if c = 43 then 62
  else if c = 47 then 63
  else 0xff

/-- The loop of `b64_decode` over the characters that are left. `buf` keeps every bit that the
shifts have not pushed out of 32. -/
def b64_loop : ℕ → UInt32 → Str → Str → Str
  | _, _, out, [] => out
  | bits, buf, out, c :: in_ =>
    if c = 61 ∨ c = 13 ∨ c = 10 ∨ c = 32 then b64_loop bits buf out in_
    else
      let v := b64_value c
      if v = 0xff then []
      else
        let buf := (buf <<< 6) ||| v.toUInt32
        let bits := bits + 6
        if 8 ≤ bits then
          let bits := bits - 8
          b64_loop bits buf (out ++ [((buf >>> UInt32.ofNat bits) &&& 0xff).toUInt8]) in_
        else b64_loop bits buf out in_

/-- Padding, blanks and line ends are skipped; one invalid character makes the result empty. -/
def b64_decode (in_ : Str) : Str := b64_loop 0 0 [] in_

example : b64_decode (lit "dTpw") = lit "u:p" := by decide

/-- The options that the check of credentials reads. -/
structure CliOptions where
  web_user : Str
  web_pass : Str

/-- `headers name` is the value that `req.headers.find` gives. -/
structure Request where
  headers : Str → Option Str

def CliOptions.require_auth (opts : CliOptions) : Bool :=
  !opts.web_user.isEmpty && !opts.web_pass.isEmpty

def check_auth (opts : CliOptions) (req : Request) : Bool :=
  if !opts.require_auth then true
  else
    match req.headers (lit "Authorization") with
    | none => false
    | some value =>
      let pre := lit "Basic "
      if value.length ≤ pre.length ∨ value.take pre.length ≠ pre then false
      else
        let decoded := b64_decode (value.drop pre.length)
        match Framing.find [58] decoded with
        | none => false
        | some colon =>
          let user := decoded.take colon
          let pass := decoded.drop (colon + 1)
          user == opts.web_user && pass == opts.web_pass

end Praxis
