import Praxis.Bytes
import Mathlib.Data.Rat.Init

/-!
# JSON values

What the engine uses of `nlohmann::json`: the values, the checked accessors and the exceptions they
throw. Reading and writing JSON text is the library's own, so a model takes them as a `JsonText`.
-/

namespace Praxis

/-- What the code can throw: the JSON library's errors by number, a file system error, or whatever
a tool, a provider or a sink of the user's throws. -/
inductive Exn
  | type_error (id : ℕ)
  | parse_error
  | filesystem_error
  | user (what : Str)
  deriving DecidableEq, Inhabited

/-- A `nlohmann::json`. A finite `double` is the rational it stands for. -/
inductive Json
  | null
  | boolean (b : Bool)
  | number_integer (i : ℤ)
  | number_unsigned (n : ℕ)
  | number_float (q : ℚ)
  | string (s : Str)
  | array (elems : List Json)
  | object (fields : List (Str × Json))
  deriving Inhabited

namespace Json

mutual

/-- Equality of two values, decided. -/
def same : Json → Json → Bool
  | null, null => true
  | boolean a, boolean b => a == b
  | number_integer a, number_integer b => a == b
  | number_unsigned a, number_unsigned b => a == b
  | number_float a, number_float b => a == b
  | string a, string b => a == b
  | array a, array b => sameElems a b
  | object a, object b => sameFields a b
  | _, _ => false

def sameElems : List Json → List Json → Bool
  | [], [] => true
  | a :: as, b :: bs => same a b && sameElems as bs
  | _, _ => false

def sameFields : List (Str × Json) → List (Str × Json) → Bool
  | [], [] => true
  | (k, a) :: as, (l, b) :: bs => k == l && same a b && sameFields as bs
  | _, _ => false

end

mutual

theorem same_iff : ∀ a b : Json, same a b = true ↔ a = b
  | null, b => by cases b <;> simp [same]
  | boolean _, b => by cases b <;> simp [same]
  | number_integer _, b => by cases b <;> simp [same]
  | number_unsigned _, b => by cases b <;> simp [same]
  | number_float _, b => by cases b <;> simp [same]
  | string _, b => by cases b <;> simp [same]
  | array a, b => by cases b <;> simp [same, sameElems_iff a]
  | object a, b => by cases b <;> simp [same, sameFields_iff a]

theorem sameElems_iff : ∀ a b : List Json, sameElems a b = true ↔ a = b
  | [], b => by cases b <;> simp [sameElems]
  | x :: xs, b => by cases b <;> simp [sameElems, same_iff x, sameElems_iff xs]

theorem sameFields_iff : ∀ a b : List (Str × Json), sameFields a b = true ↔ a = b
  | [], b => by cases b <;> simp [sameFields]
  | (k, x) :: xs, b => by
    cases b <;> simp [sameFields, same_iff x, sameFields_iff xs, Prod.ext_iff]

end

instance : DecidableEq Json := fun a b => decidable_of_iff _ (same_iff a b)

/-- `obj[key] = value` on the ordered map that an object is. -/
def setField (key : Str) (value : Json) : List (Str × Json) → List (Str × Json)
  | [] => [(key, value)]
  | (k, v) :: rest =>
    match compare key k with
    | .lt => (key, value) :: (k, v) :: rest
    | .eq => (k, value) :: rest
    | .gt => (k, v) :: setField key value rest

/-- The object an initializer list of pairs makes. -/
def ofFields (fields : List (Str × Json)) : Json :=
  object (fields.foldl (fun acc f => setField f.1 f.2 acc) [])

/-- The field of that name, if the value is an object that has one. -/
def field? : Json → Str → Option Json
  | object fields, key => fields.lookup key
  | _, _ => none

/-- `contains(key)`, false of what is not an object. -/
def contains (j : Json) (key : Str) : Bool := (j.field? key).isSome

/-- `get<std::string>()`. -/
def getString : Json → Except Exn Str
  | string s => .ok s
  | _ => .error (.type_error 302)

/-- `get<bool>()`. -/
def getBool : Json → Except Exn Bool
  | boolean b => .ok b
  | _ => .error (.type_error 302)

/-- `get<unsigned>()`: any number or boolean, converted as `static_cast` does. -/
def getUInt32 : Json → Except Exn UInt32
  | number_unsigned n => .ok (UInt32.ofNat n)
  | number_integer i => .ok (UInt32.ofInt i)
  | number_float q => .ok (UInt32.ofInt (if 0 ≤ q then q.floor else q.ceil))
  | boolean b => .ok (if b then 1 else 0)
  | _ => .error (.type_error 302)

/-- `value(key, default)`: throws on what is not an object, and when the field has another type. -/
def value {α : Type} (get : Json → Except Exn α) (j : Json) (key : Str) (dflt : α) :
    Except Exn α :=
  match j with
  | object fields =>
    match fields.lookup key with
    | some v => get v
    | none => .ok dflt
  | _ => .error (.type_error 306)

/-- `j[key]` on a value that may be changed: null becomes an object, an absent field is null. -/
def index (j : Json) (key : Str) : Except Exn Json :=
  match j with
  | object fields => .ok ((fields.lookup key).getD null)
  | null => .ok null
  | _ => .error (.type_error 305)

end Json

/-- The text side of `nlohmann::json`: `parse` finds the value of a text, if it has one, and `dump`
writes a value, or throws on a string that is not UTF-8. -/
structure JsonText where
  parse : Str → Option Json
  dump : Json → Except Exn Str

/-- A library that knows the texts of a table. -/
def JsonText.ofTable (table : List (Str × Json)) : JsonText where
  parse := fun s => table.lookup s
  dump := fun j =>
    match table.find? fun entry => entry.2 = j with
    | some entry => .ok entry.1
    | none => .error (.type_error 316)

end Praxis
