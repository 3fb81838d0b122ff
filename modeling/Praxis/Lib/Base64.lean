import Mathlib.Algebra.Group.Nat.Defs
import Mathlib.Data.List.Basic

/-!
# Base 64

Three bytes are written as four digits of six bits. `bytes` reads digits one at a time and gives a
byte as soon as eight bits have come in, so it does not matter how the digits were grouped.
-/

namespace Base64

/-- The digits of a text; the last bits of the last digit are 0. -/
def sextets : List UInt8 → List ℕ
  | a :: b :: c :: s =>
    a.toNat / 4 :: (a.toNat % 4 * 16 + b.toNat / 16) :: (b.toNat % 16 * 4 + c.toNat / 64)
      :: c.toNat % 64 :: sextets s
  | [a, b] => [a.toNat / 4, a.toNat % 4 * 16 + b.toNat / 16, b.toNat % 16 * 4]
  | [a] => [a.toNat / 4, a.toNat % 4 * 16]
  | [] => []

/-- The character that stands for a digit. -/
def char (d : ℕ) : UInt8 :=
  if d < 26 then UInt8.ofNat (65 + d)
  else if d < 52 then UInt8.ofNat (97 + (d - 26))
  else if d < 62 then UInt8.ofNat (48 + (d - 52))
  else if d = 62 then 43
  else 47

/-- The text without padding. -/
def unpadded (s : List UInt8) : List UInt8 := (sextets s).map char

/-- The text, filled up to whole groups of four. -/
def encode (s : List UInt8) : List UInt8 :=
  unpadded s ++ List.replicate ((3 - s.length % 3) % 3) 61

/-- The bytes that digits give after `acc`, a number of `bits` bits. -/
def bytes : ℕ → ℕ → List ℕ → List UInt8
  | _, _, [] => []
  | bits, acc, d :: ds =>
    if bits + 6 < 8 then bytes (bits + 6) (acc * 64 + d) ds
    else
      UInt8.ofNat ((acc * 64 + d) / 2 ^ (bits - 2))
        :: bytes (bits - 2) ((acc * 64 + d) % 2 ^ (bits - 2)) ds

theorem sextets_lt : ∀ {s : List UInt8}, ∀ d ∈ sextets s, d < 64
  | a :: b :: c :: s => by
    have ha := a.toNat_lt
    have hb := b.toNat_lt
    have hc := c.toNat_lt
    simp only [sextets, List.forall_mem_cons]
    exact ⟨by omega, by omega, by omega, by omega, sextets_lt⟩
  | [a, b] => by
    have ha := a.toNat_lt
    have hb := b.toNat_lt
    simp only [sextets, List.forall_mem_cons]
    exact ⟨by omega, by omega, by omega, by simp⟩
  | [a] => by
    have ha := a.toNat_lt
    simp only [sextets, List.forall_mem_cons]
    exact ⟨by omega, by omega, by simp⟩
  | [] => by simp [sextets]

theorem ofNat_eq {a : UInt8} {n : ℕ} (h : n = a.toNat) : UInt8.ofNat n = a := by
  rw [h, UInt8.ofNat_toNat]

/-- Reading back what was written. -/
theorem bytes_sextets : ∀ s : List UInt8, bytes 0 0 (sextets s) = s
  | a :: b :: c :: s => by
    have ha := a.toNat_lt
    have hb := b.toNat_lt
    have hc := c.toNat_lt
    simp only [sextets, bytes, Nat.reduceAdd, Nat.reduceSub, Nat.reduceLT, Nat.reducePow, reduceIte,
      List.cons.injEq, Nat.mod_one]
    exact ⟨ofNat_eq (by omega), ofNat_eq (by omega), ofNat_eq (by omega), bytes_sextets s⟩
  | [a, b] => by
    have ha := a.toNat_lt
    have hb := b.toNat_lt
    simp only [sextets, bytes, Nat.reduceAdd, Nat.reduceSub, Nat.reduceLT, Nat.reducePow, reduceIte,
      List.cons.injEq, and_true]
    exact ⟨ofNat_eq (by omega), ofNat_eq (by omega)⟩
  | [a] => by
    have ha := a.toNat_lt
    simp only [sextets, bytes, Nat.reduceAdd, Nat.reduceSub, Nat.reduceLT, Nat.reducePow, reduceIte,
      List.cons.injEq, and_true]
    exact ofNat_eq (by omega)
  | [] => rfl

end Base64
