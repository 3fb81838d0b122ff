import Mathlib.Data.List.Basic
import Mathlib.Data.Nat.Digits.Defs

/-!
# Byte strings

A `std::string` is a sequence of bytes: nothing in the engine keeps its strings valid UTF-8.
String literals of the source are ASCII and are read as their bytes.
-/

namespace Praxis

/-- A `std::string`. -/
abbrev Str := List UInt8

/-- The bytes of an ASCII literal. -/
def lit (s : String) : Str := s.toList.map fun c => c.toNat.toUInt8

instance : Coe String Str := ⟨lit⟩

/-- `std::to_string` of an unsigned integer. -/
def decimal (n : ℕ) : Str := (Nat.toDigits 10 n).map fun c => c.toNat.toUInt8

/-- `s.rfind(pre, 0) == 0`. -/
def starts_with (pre s : Str) : Bool := pre.isPrefixOf s

example : lit "a=" ++ decimal 107 = lit "a=107" := by decide

end Praxis
