import Mathlib.Data.List.Basic

/-!
# Words of a shell command

How a POSIX shell cuts a simple command into words, as far as quotes and blanks go. A command with
an unquoted operator, an expansion or an open quote is not cut at all, so `some` words are the ones
that the shell passes on. `quote` writes any word between single quotes (`words_quote`).
-/

namespace Shell

/-- `special` are the characters that an unquoted word may not have, `active` those that keep a
meaning between double quotes. -/
structure Grammar (α : Type) where
  single : α
  double : α
  blank : α → Bool
  special : α → Bool
  active : α → Bool
  double_ne_single : double ≠ single
  active_single : active single = false

/-- Where a reader is, and what it has of the current word. -/
inductive Mode (α : Type)
  | outside (w : Option (List α))
  | single (w : List α)
  | double (w : List α)

variable {α : Type} [DecidableEq α] (G : Grammar α)

def words : Mode α → List α → Option (List (List α))
  | .outside w, [] => some w.toList
  | .single _, [] => none
  | .double _, [] => none
  | .outside w, c :: s =>
    if c = G.single then words (.single (w.getD [])) s
    else if c = G.double then words (.double (w.getD [])) s
    else if G.blank c then (words (.outside none) s).map (w.toList ++ ·)
    else if G.special c then none
    else words (.outside (some (w.getD [] ++ [c]))) s
  | .single w, c :: s =>
    if c = G.single then words (.outside (some w)) s else words (.single (w ++ [c])) s
  | .double w, c :: s =>
    if c = G.double then words (.outside (some w)) s
    else if G.active c then none
    else words (.double (w ++ [c])) s

/-- A single quote cannot stand between single quotes: it is written between double quotes, with
the single quotes closed before it and opened after it. -/
def quoteChar (c : α) : List α :=
  if c = G.single then [G.single, G.double, G.single, G.double, G.single] else [c]

def quote (w : List α) : List α := G.single :: w.flatMap (quoteChar G) ++ [G.single]

variable {G}

theorem words_quoteChar (w : List α) (c : α) (s : List α) :
    words G (.single w) (quoteChar G c ++ s) = words G (.single (w ++ [c])) s := by
  rw [quoteChar]
  split_ifs with hc
  · subst hc
    simp [words, G.double_ne_single, G.double_ne_single.symm, G.active_single]
  · simp [words, hc]

theorem words_flatMap_quoteChar : ∀ (v w s : List α),
    words G (.single w) (v.flatMap (quoteChar G) ++ s) = words G (.single (w ++ v)) s
  | [], w, s => by simp
  | c :: v, w, s => by
    rw [List.flatMap_cons, List.append_assoc, words_quoteChar, words_flatMap_quoteChar v,
      List.append_assoc, List.singleton_append]

/-- What stands between the quotes is read as it is. -/
theorem words_quote_append (v : List α) (w : Option (List α)) (s : List α) :
    words G (.outside w) (quote G v ++ s) = words G (.outside (some (w.getD [] ++ v))) s := by
  rw [quote, List.append_assoc, List.cons_append, words, if_pos rfl, words_flatMap_quoteChar,
    List.singleton_append, words, if_pos rfl]

theorem words_blank {b : α} (hsingle : b ≠ G.single) (hdouble : b ≠ G.double)
    (hb : G.blank b = true) (w s : List α) :
    words G (.outside (some w)) (b :: s) = (words G (.outside none) s).map (w :: ·) := by
  rw [words, if_neg hsingle, if_neg hdouble, if_pos hb]
  rfl

/-- Quoted words with blanks between them are read back, whatever is in them. -/
theorem words_quote {b : α} (hsingle : b ≠ G.single) (hdouble : b ≠ G.double)
    (hb : G.blank b = true) : ∀ (vs : List (List α)) (v : List α),
      words G (.outside none) (quote G v ++ vs.flatMap fun v => b :: quote G v) = some (v :: vs)
  | [], v => by
    rw [words_quote_append]
    rfl
  | v' :: vs, v => by
    rw [words_quote_append, List.flatMap_cons, List.cons_append,
      words_blank hsingle hdouble hb, words_quote hsingle hdouble hb vs v']
    rfl

end Shell
