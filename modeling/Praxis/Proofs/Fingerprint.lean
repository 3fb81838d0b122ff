import Praxis.Context
import Praxis.Lib.Text

/-!
# What a hard fingerprint tells apart

A hard fingerprint is the type and the entries of the hard keys, joined with newlines and equal
signs that nothing escapes. Two facts have one fingerprint if they agree, and also if the one's text
is the other's with a separator read as a part of a field (`decisive_iff`).
-/

namespace Praxis

open Text (Recut SameEnds)

/-- A key ends with an equal sign, a value with a newline. -/
def entryFields : List (Str × Str) → List (Str × UInt8)
  | [] => []
  | e :: entries => (e.1, 61) :: (e.2, 10) :: entryFields entries

/-- The fields of a fingerprint: the type, then keys and values. -/
def fingerprintFields (type : Str) (keys : HardKeys) : List (Str × UInt8) :=
  (type, 10) :: entryFields keys.toList

theorem joined_entryFields (entries : List (Str × Str)) (out : Str) :
    entries.foldl (fun (out : Str) e => out ++ e.1 ++ "=" ++ e.2 ++ "\n") out
      = out ++ Text.joined (entryFields entries) := by
  induction entries generalizing out with
  | nil => simp [entryFields, Text.joined]
  | cons e entries ih =>
    rw [List.foldl_cons, ih, entryFields, Text.joined_cons, Text.joined_cons]
    simp [lit]

theorem hard_fingerprint_eq (T : JsonText) (type content : Str) :
    (Digest.build T type content).hard_fingerprint
      = Text.joined (fingerprintFields type (hard_keys T content)) := by
  rw [fingerprintFields, Text.joined_cons]
  unfold Digest.build HardKeys.join
  dsimp only
  rw [joined_entryFields]
  simp [lit]

theorem sameEnds_entryFields (entries entries' : List (Str × Str)) :
    SameEnds (entryFields entries) (entryFields entries') := by
  induction entries generalizing entries' with
  | nil => simp [SameEnds, entryFields]
  | cons e entries ih =>
    rcases entries' with _ | ⟨e', entries'⟩
    · simp [SameEnds, entryFields]
    · have hrest := ih entries'
      unfold SameEnds at hrest ⊢
      simpa [entryFields] using hrest

theorem entryFields_inj {entries entries' : List (Str × Str)}
    (h : entryFields entries = entryFields entries') : entries = entries' := by
  induction entries generalizing entries' with
  | nil =>
    rcases entries' with _ | ⟨e', entries'⟩
    · rfl
    · cases h
  | cons e entries ih =>
    rcases entries' with _ | ⟨e', entries'⟩
    · cases h
    · simp only [entryFields, List.cons.injEq, Prod.mk.injEq, and_true] at h
      obtain ⟨hkey, hvalue, hrest⟩ := h
      rw [ih hrest, Prod.ext hkey hvalue]

/-- The fingerprints of two facts match just when the facts agree in type and hard keys. -/
def Decisive (T : JsonText) (type content type' content' : Str) : Prop :=
  (Digest.build T type content).matches_hard (Digest.build T type' content') ↔
    type = type' ∧ (hard_keys T content).toList = (hard_keys T content').toList

theorem matches_hard_iff (T : JsonText) (type content type' content' : Str) :
    (Digest.build T type content).matches_hard (Digest.build T type' content') ↔
      (type = type' ∧ (hard_keys T content).toList = (hard_keys T content').toList)
        ∨ Recut (fingerprintFields type (hard_keys T content))
            (fingerprintFields type' (hard_keys T content'))
        ∨ Recut (fingerprintFields type' (hard_keys T content'))
            (fingerprintFields type (hard_keys T content)) := by
  have hends : SameEnds (fingerprintFields type (hard_keys T content))
      (fingerprintFields type' (hard_keys T content')) := by
    have hrest := sameEnds_entryFields (hard_keys T content).toList (hard_keys T content').toList
    unfold SameEnds at hrest ⊢
    simpa [fingerprintFields] using hrest
  unfold Digest.matches_hard
  rw [beq_iff_eq, hard_fingerprint_eq, hard_fingerprint_eq, Text.joined_eq_iff hends]
  refine or_congr_left ?_
  simp only [fingerprintFields, List.cons.injEq, Prod.mk.injEq, and_true]
  exact and_congr_right' ⟨entryFields_inj, fun h => by rw [h]⟩

/-- A fingerprint tells two facts apart unless one of them recuts the other: at the first field in
which they differ, the one's goes on over the separator that ends the other's, with the same text
after it. -/
theorem decisive_iff (T : JsonText) (type content type' content' : Str) :
    Decisive T type content type' content' ↔
      ¬ Recut (fingerprintFields type (hard_keys T content))
          (fingerprintFields type' (hard_keys T content'))
        ∧ ¬ Recut (fingerprintFields type' (hard_keys T content'))
          (fingerprintFields type (hard_keys T content)) := by
  have hmatches := matches_hard_iff T type content type' content'
  have hagree : type = type' ∧ (hard_keys T content).toList = (hard_keys T content').toList →
      fingerprintFields type (hard_keys T content)
        = fingerprintFields type' (hard_keys T content') := fun h => by
    rw [fingerprintFields, fingerprintFields, h.1, h.2]
  unfold Decisive
  rw [hmatches]
  constructor
  · intro h
    exact ⟨fun hcut => hcut.ne (hagree (h.1 (.inr (.inl hcut)))),
      fun hcut => hcut.ne (hagree (h.1 (.inr (.inr hcut)))).symm⟩
  · rintro ⟨hcut, hcut'⟩
    refine ⟨?_, .inl⟩
    rintro (h | h | h)
    · exact h
    · exact absurd h hcut
    · exact absurd h hcut'

/-- One value with a newline and an equal sign in it, and two values. -/
def forgedText : JsonText := .ofTable
  [("\x7b\"a\":\"1\\nb=2\"\x7d", .object [("a", .string "1\nb=2")]),
    ("\x7b\"a\":\"1\",\"b\":\"2\"\x7d", .object [("a", .string "1"), ("b", .string "2")])]

theorem not_decisive_forged :
    ¬ Decisive forgedText "result" "\x7b\"a\":\"1\\nb=2\"\x7d"
      "result" "\x7b\"a\":\"1\",\"b\":\"2\"\x7d" := by
  unfold Decisive
  decide +kernel

end Praxis
