import Praxis.Context

/-!
# Digests as JSON

A whole `Digest`, with its soft fingerprint, is written as an object of three fields and read back
field by field; an absent field is left as a new digest has it.
-/

namespace Praxis

structure SoftFingerprint where
  embedding : List ℚ := []
  confidence : ℚ := 0
  deriving DecidableEq

/-- A `Digest` with its soft fingerprint. -/
structure WholeDigest extends Digest where
  soft : SoftFingerprint := {}

/-- `get<double>()`: any number. -/
def Json.getDouble : Json → Except Exn ℚ
  | number_float q => .ok q
  | number_integer i => .ok i
  | number_unsigned n => .ok n
  | _ => .error (.type_error 302)

/-- `get<std::vector<double>>()`. -/
def Json.getDoubles : Json → Except Exn (List ℚ)
  | array elems => elems.mapM getDouble
  | _ => .error (.type_error 302)

namespace WholeDigest

def to_json (digest : WholeDigest) : Json :=
  .ofFields
    [("hard_fingerprint", .string digest.hard_fingerprint),
      ("hard_keys", .ofFields (digest.hard_keys.toList.map fun e => (e.1, .string e.2))),
      ("soft", .ofFields
        [("confidence", .number_float digest.soft.confidence),
          ("embedding", .array (digest.soft.embedding.map .number_float))])]

/-- The loop over the fields of `hard_keys`. -/
def readKeys : HardKeys → List (Str × Json) → Except Exn HardKeys
  | keys, [] => pure keys
  | keys, (key, value) :: fields => do
    let text ← value.getString
    readKeys (keys.insert key text) fields

def from_json (json : Json) : Except Exn WholeDigest := do
  let hard_fingerprint ← json.value Json.getString "hard_fingerprint" []
  let hard_keys ← match json.field? "hard_keys" with
    | some (.object fields) => readKeys ∅ fields
    | _ => pure ∅
  let soft ← json.value .ok "soft" (.object [])
  let confidence ← soft.value Json.getDouble "confidence" 0
  let embedding ← soft.value Json.getDoubles "embedding" []
  pure
    { hard_keys := hard_keys
      hard_fingerprint := hard_fingerprint
      soft := { embedding := embedding, confidence := confidence } }

end WholeDigest

end Praxis
