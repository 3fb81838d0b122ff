import Mathlib.Algebra.BigOperators.Group.Finset.Basic
import Mathlib.Data.Fintype.Basic
import Praxis.Context

/-!
# Soft fingerprints

`build_soft` up to the division by the norm, over the rationals: the tokens of a content are hashed
one by one, in pairs and in threes, and each hash adds to one of 64 coordinates.
-/

namespace Praxis

/-! ## Tokens -/

/-- `std::tolower` of an ASCII code point. -/
def tolower (cp : UInt32) : UInt8 := (if 65 ≤ cp ∧ cp ≤ 90 then cp + 32 else cp).toUInt8

/-- `tokens` and `current` of `build_soft`. -/
structure SoftTokens where
  tokens : List Str := []
  current : Str := []

namespace SoftTokens

def flush (st : SoftTokens) : SoftTokens :=
  if st.current.isEmpty then st else { tokens := st.tokens ++ [st.current], current := [] }

def isBlank (cp : UInt32) : Bool := cp == 32 || cp == 10 || cp == 9 || cp == 13

/-- The body of the loop over the code points; a wide one is a token of its own, `%08x`. -/
def read (st : SoftTokens) (cp : UInt32) : SoftTokens :=
  if isBlank cp then st.flush
  else if 0x80 ≤ cp then
    { st.flush with tokens := st.flush.tokens ++ [padded 16 8 cp.toNat] }
  else { st with current := st.current ++ [tolower cp] }

def ofContent (content : Str) : List Str :=
  ((decode_codepoints content).foldl read {}).flush.tokens

end SoftTokens

/-! ## Deposits -/

/-- `kSoftDim`. -/
abbrev kSoftDim : ℕ := 64

abbrev Embedding := Fin kSoftDim → ℚ

def deposit (embedding : Embedding) (tok : Str) (weight : ℚ) : Embedding :=
  let h := fnv1a tok
  let bucket := Fin.ofNat kSoftDim h.toNat
  let sign : ℚ := if h &&& 1 ≠ 0 then 1 else -1
  Function.update embedding bucket (embedding bucket + weight * sign)

/-- The body of the loop over the tokens. -/
def depositsAt (tokens : List Str) (embedding : Embedding) (i : ℕ) : Embedding :=
  let tok := fun k => tokens.getD k []
  let unigram := deposit embedding (tok i) 1
  let bigram :=
    if i + 1 < tokens.length then deposit unigram (tok i ++ " " ++ tok (i + 1)) (1 / 2)
    else unigram
  if i + 2 < tokens.length then
    deposit bigram (tok i ++ " " ++ tok (i + 1) ++ " " ++ tok (i + 2)) (1 / 4)
  else bigram

/-- The embedding of `build_soft` before it is divided by its norm. -/
def build_soft.embedding (content : Str) : Embedding :=
  if content.isEmpty then 0
  else
    let tokens := SoftTokens.ofContent content
    (List.range tokens.length).foldl (depositsAt tokens) 0

/-- `norm` of `build_soft` before its root is taken. -/
def build_soft.norm (content : Str) : ℚ :=
  ∑ i, build_soft.embedding content i * build_soft.embedding content i

/-- `soft_similarity` of two contents, times the two norms that their embeddings are divided by. -/
def soft_similarity (content other : Str) : ℚ :=
  ∑ i, build_soft.embedding content i * build_soft.embedding other i

example : SoftTokens.ofContent "Ab c" = [lit "ab", lit "c"] := by decide +kernel

end Praxis
