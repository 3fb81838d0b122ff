import Praxis.Json
import Mathlib.Data.List.AList
import Mathlib.Data.Rat.Floor
import Std.Data.TreeMap

/-!
# Facts, digests and the working set

Tool results are kept verbatim in a `FactStore`, their scalar fields are merged into one digest,
and the working set renders the digest with the facts of the turn within a token budget.
-/

namespace Praxis

/-- `std::to_string` of a signed integer. -/
def decimalInt : ℤ → Str
  | .ofNat n => decimal n
  | .negSucc n => "-" ++ decimal (n + 1)

/-- The digits of `n` in the given base, with zeros in front up to `width`. -/
def padded (base width n : ℕ) : Str :=
  let digits : Str := (Nat.toDigits base n).map fun c => c.toNat.toUInt8
  List.replicate (width - digits.length) (48 : UInt8) ++ digits

/-- The nearest natural number, the even one of two. -/
def roundHalfEven (q : ℚ) : ℕ :=
  let n := q.floor.toNat
  if q - n < 1 / 2 then n else if 1 / 2 < q - n then n + 1 else if n % 2 = 0 then n else n + 1

/-- `std::to_string` of a `double`: six decimals. -/
def decimalFloat (q : ℚ) : Str :=
  let n := roundHalfEven (|q| * 1000000)
  (if q < 0 then lit "-" else []) ++ decimal (n / 1000000) ++ "." ++ padded 10 6 (n % 1000000)

/-- A `std::map` of strings. -/
abbrev HardKeys := Std.TreeMap Str Str

/-- The text a scalar field becomes; `get<long long>` wraps an unsigned value that is too large. -/
def scalarText : Json → Option Str
  | .string s => some s
  | .number_integer i => some (decimalInt (Int64.ofInt i).toInt)
  | .number_unsigned n => some (decimalInt (Int64.ofInt n).toInt)
  | .number_float q => some (decimalFloat q)
  | .boolean b => some (if b then "true" else "false")
  | _ => none

/-- `digest_[k] = v` for each entry. -/
def HardKeys.update (digest keys : HardKeys) : HardKeys :=
  keys.toList.foldl (fun m e => m.insert e.1 e.2) digest

/-- `Normalizer::hard_keys`. -/
def hard_keys (T : JsonText) (content : Str) : HardKeys :=
  if content.isEmpty then ∅
  else
    match T.parse content with
    | some (.object fields) =>
      fields.foldl (fun keys f => match scalarText f.2 with
        | some text => keys.insert f.1 text
        | none => keys) ∅
    | _ => ∅

/-- The entries as text, one after the other. -/
def HardKeys.join (keys : HardKeys) : Str :=
  keys.toList.foldl (fun out e => out ++ e.1 ++ "=" ++ e.2 ++ "\n") []

/-- A `Digest`, without its soft fingerprint. -/
structure Digest where
  hard_keys : HardKeys := ∅
  hard_fingerprint : Str := []

namespace Digest

def build (T : JsonText) (type content : Str) : Digest :=
  let keys := Praxis.hard_keys T content
  { hard_keys := keys, hard_fingerprint := type ++ "\n" ++ keys.join }

def matches_hard (digest other : Digest) : Bool :=
  digest.hard_fingerprint == other.hard_fingerprint

end Digest

/-- What a leading byte says: the first bits of the code point and how many bytes continue it. -/
def leadByte (c : UInt8) : UInt32 × ℕ :=
  if c &&& 0x80 = 0 then (c.toUInt32, 0)
  else if c &&& 0xE0 = 0xC0 then ((c &&& 0x1F).toUInt32, 1)
  else if c &&& 0xF0 = 0xE0 then ((c &&& 0x0F).toUInt32, 2)
  else if c &&& 0xF8 = 0xF0 then ((c &&& 0x07).toUInt32, 3)
  else (c.toUInt32, 0)

/-- The loop of `decode_codepoints`, `extra` bytes of the code point `cp` still to come. -/
def decodeFrom : UInt32 → ℕ → Str → List UInt32
  | _, 0, [] => []
  | cp, _ + 1, [] => [cp]
  | _, 0, c :: s =>
    match leadByte c with
    | (cp, 0) => cp :: decodeFrom 0 0 s
    | (cp, extra + 1) => decodeFrom cp (extra + 1) s
  | cp, extra + 1, c :: s =>
    let cp' := (cp <<< 6) ||| (c &&& 0x3F).toUInt32
    if extra = 0 then cp' :: decodeFrom 0 0 s else decodeFrom cp' extra s

def decode_codepoints (s : Str) : List UInt32 := decodeFrom 0 0 s

/-- The variables of `decode_codepoints` within a code point, and the indices it has read. -/
structure DecodeState where
  i : ℕ
  cp : UInt32
  reads : List ℕ

/-- The `for` loop over the bytes that continue a code point, `extra` of them to come. -/
def trailLoop (s : Str) : ℕ → DecodeState → Option DecodeState
  | 0, st => some st
  | extra + 1, st =>
    if st.i + 1 < s.length then
      s[st.i + 1]?.bind fun c => trailLoop s extra
        { i := st.i + 1
          cp := (st.cp <<< 6) ||| (c &&& 0x3F).toUInt32
          reads := st.reads ++ [st.i + 1] }
    else some st

/-- The `while` loop at its indices, cut off after `fuel` rounds: what it has put out and the
indices it has read. Nothing also where it would read past the end. -/
def decodeLoop (s : Str) : ℕ → ℕ → List ℕ → List UInt32 → Option (List UInt32 × List ℕ)
  | 0, i, reads, out => if i < s.length then none else some (out, reads)
  | fuel + 1, i, reads, out =>
    if i < s.length then
      s[i]?.bind fun c =>
        (trailLoop s (leadByte c).2 { i := i, cp := (leadByte c).1, reads := reads ++ [i] }).bind
          fun st => decodeLoop s fuel (st.i + 1) st.reads (out ++ [st.cp])
    else some (out, reads)

/-- The loop of `estimate_tokens`. -/
def countTokens : Bool → ℕ → List UInt32 → ℕ
  | _, count, [] => count
  | in_word, count, cp :: cps =>
    if cp = 32 ∨ cp = 10 ∨ cp = 9 then countTokens false count cps
    else if 0x80 ≤ cp then countTokens false ((if in_word then count + 1 else count) + 1) cps
    else countTokens true (if in_word then count else count + 1) cps

def estimate_tokens (text : Str) : ℕ := countTokens false 0 (decode_codepoints text)

def fnv1a (data : Str) : UInt64 :=
  data.foldl (fun hash c => (hash ^^^ c.toUInt64) * 1099511628211) 1469598103934665603

/-- `%016zx`. -/
def hex16 (h : UInt64) : Str := padded 16 16 h.toNat

structure Fact where
  id : Str
  type : Str
  content : Str
  deriving DecidableEq

/-- The store of a `ContextManager`, which has no file behind it. -/
structure FactStore where
  entries : AList fun _ : Str => Fact := ∅

namespace FactStore

def digest_hex (type content : Str) : Str :=
  let combined := type ++ "\n" ++ content
  hex16 (fnv1a combined) ++ hex16 (UInt64.ofNat combined.length)

def append (store : FactStore) (type content : Str) : Str × FactStore :=
  let id := digest_hex type content
  match store.entries.lookup id with
  | some _ => (id, store)
  | none => (id, ⟨store.entries.insert id { id := id, type := type, content := content }⟩)

def get (store : FactStore) (id : Str) : Option Fact := store.entries.lookup id

end FactStore

/-! ## The working set -/

structure WorkingSet where
  render : Str := []
  fact_blocks : List Str := []
  token_count : ℕ := 0
  deriving DecidableEq

structure TurnContext where
  goal : Str := []
  recent_tool_results : List Str := []
  deriving DecidableEq

inductive RecallMode
  | Precise | Approximate | Degraded
  deriving DecidableEq

structure RecallResult where
  mode : RecallMode := .Degraded
  id : Str := []
  content : Str := []
  confidence : ℚ := 0
  deriving DecidableEq

structure ContextManager where
  store : FactStore := {}
  digest : HardKeys := ∅
  fact_order : List Str := []
  max_working_tokens : ℕ := 0
  digest_dirty : Bool := true

namespace ContextManager

/-- A new context; a budget of 0 leaves the limit at 0. -/
def new (token_budget : ℕ) : ContextManager := { max_working_tokens := token_budget }

def record_tool_result (T : JsonText) (context : ContextManager) (fact_id : Str) :
    ContextManager :=
  { context with
    fact_order := context.fact_order ++ [fact_id]
    digest_dirty := true
    digest := match context.store.get fact_id with
      | some fact => HardKeys.update context.digest (hard_keys T fact.content)
      | none => context.digest }

/-- Merges the fact with that id, if the store has it. -/
def mergeFact (T : JsonText) (store : FactStore) (digest : HardKeys) (fact_id : Str) : HardKeys :=
  match store.get fact_id with
  | some fact => HardKeys.update digest (hard_keys T fact.content)
  | none => digest

def rebuild_digest (T : JsonText) (context : ContextManager) : ContextManager :=
  { context with
    digest := context.fact_order.foldl (mergeFact T context.store) ∅
    digest_dirty := false }

/-- The goal and the digest, which every render starts with. -/
def renderFacts (context : ContextManager) (ctx : TurnContext) : Str :=
  context.digest.toList.foldl (fun render e => render ++ "- " ++ e.1 ++ " = " ++ e.2 ++ "\n")
    ("# Goal\n" ++ ctx.goal ++ "\n\n# Facts\n")

/-- One fact of the turn, cut to half the limit in bytes where it has too many tokens. -/
def renderFact (context : ContextManager) (render : Str) (fact : Fact) : Str :=
  let headed := render ++ "\n## " ++ fact.id ++ "\n"
  if estimate_tokens fact.content ≤ context.max_working_tokens then headed ++ fact.content ++ "\n"
  else headed ++ fact.content.take (context.max_working_tokens / 2)
    ++ "\n...[truncated, recall by id]\n"

/-- `render_working_set`; a render over the limit loses its facts, but not its `fact_blocks`. -/
def render_working_set (context : ContextManager) (ctx : TurnContext) : WorkingSet :=
  let facts := ctx.recent_tool_results.filterMap fun id =>
    (context.store.get id).map fun fact => { fact with id := id }
  let render := facts.foldl context.renderFact (context.renderFacts ctx)
  let token_count := estimate_tokens render
  if context.max_working_tokens < token_count then
    { render := context.renderFacts ctx
      fact_blocks := facts.map (·.id)
      token_count := estimate_tokens (context.renderFacts ctx) }
  else { render := render, fact_blocks := facts.map (·.id), token_count := token_count }

end ContextManager

/-- Always a result, if only a degraded one. -/
def ContextManager.recall (context : ContextManager) (fact_id : Str) : Option RecallResult :=
  match context.store.get fact_id with
  | none => some { mode := .Degraded, id := [], content := [], confidence := 0 }
  | some fact => some { mode := .Precise, id := fact.id, content := fact.content, confidence := 1 }

/-- What a client may do with a context. -/
inductive ContextOp
  | append (type content : Str)
  | record_tool_result (fact_id : Str)
  | rebuild_digest
  | render_working_set (ctx : TurnContext)
  deriving DecidableEq

/-- The context after an operation; a render leaves it as it is. -/
def ContextOp.apply (T : JsonText) (context : ContextManager) : ContextOp → ContextManager
  | append type content => { context with store := (context.store.append type content).2 }
  | record_tool_result fact_id => context.record_tool_result T fact_id
  | rebuild_digest => context.rebuild_digest T
  | render_working_set _ => context

example : estimate_tokens (lit "read  it\tall") = 3 := by decide
example : decimalFloat (5 / 2) = lit "2.500000" := by decide +kernel

end Praxis
