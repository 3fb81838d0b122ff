import Praxis.Proofs.Tokens

/-!
# The decoder at its indices

The loops of `decode_codepoints` move one index through the bytes: the outer one to a leading
byte, the inner one over the bytes that continue it, as far as there are any. So every byte is read
once, in order, and there are no more code points than bytes (`decode_codepoints_exact`).
-/

namespace Praxis

/-- What comes out when `extra` bytes of the code point `cp` are to come. -/
def pending (cp : UInt32) (extra : ℕ) (s : Str) : List UInt32 :=
  if extra = 0 then cp :: decode_codepoints s else decodeFrom cp extra s

theorem pending_zero (cp : UInt32) (s : Str) : pending cp 0 s = cp :: decode_codepoints s := rfl

theorem pending_nil (cp : UInt32) (extra : ℕ) : pending cp extra [] = [cp] := by
  cases extra <;> rfl

theorem pending_succ (cp : UInt32) (extra : ℕ) (c : UInt8) (s : Str) :
    pending cp (extra + 1) (c :: s)
      = pending ((cp <<< 6) ||| (c &&& 0x3F).toUInt32) extra s := by
  unfold pending
  rw [if_neg (Nat.succ_ne_zero extra), decodeFrom]
  rfl

theorem decode_codepoints_cons (c : UInt8) (s : Str) :
    decode_codepoints (c :: s) = pending (leadByte c).1 (leadByte c).2 s := by
  unfold decode_codepoints
  rw [decodeFrom]
  obtain ⟨cp, extra⟩ := leadByte c
  cases extra <;> rfl

theorem length_pending_le (cp : UInt32) (extra : ℕ) (s : Str) :
    (pending cp extra s).length ≤ s.length + 1 := by
  induction s generalizing cp extra with
  | nil => rw [pending_nil]; rfl
  | cons c s ih =>
    rcases extra with _ | extra
    · rw [pending_zero, decode_codepoints_cons]
      exact Nat.succ_le_succ (ih _ _)
    · rw [pending_succ]
      exact (ih _ _).trans (Nat.le_succ _)

theorem length_decode_codepoints_le : ∀ s : Str, (decode_codepoints s).length ≤ s.length
  | [] => Nat.zero_le _
  | c :: s => by
    rw [decode_codepoints_cons]
    exact length_pending_le _ _ s

/-! ## The loops -/

/-- The inner loop stops at the last byte that it takes, having read all up to it. -/
theorem trailLoop_spec {s : Str} : ∀ (extra : ℕ) (st : DecodeState), st.i < s.length →
    st.reads = List.range (st.i + 1) →
    ∃ st', trailLoop s extra st = some st' ∧ st.i ≤ st'.i ∧ st'.i < s.length
      ∧ st'.reads = List.range (st'.i + 1)
      ∧ pending st.cp extra (s.drop (st.i + 1))
        = st'.cp :: decode_codepoints (s.drop (st'.i + 1))
  | 0, st, hi, hreads => ⟨st, rfl, le_rfl, hi, hreads, pending_zero _ _⟩
  | extra + 1, st, hi, hreads => by
    unfold trailLoop
    by_cases hnext : st.i + 1 < s.length
    · obtain ⟨st', hrun, hle, hlt, hreads', hout⟩ := trailLoop_spec (s := s) extra
        { i := st.i + 1
          cp := (st.cp <<< 6) ||| (s[st.i + 1] &&& 0x3F).toUInt32
          reads := st.reads ++ [st.i + 1] } hnext (by rw [hreads, ← List.range_succ])
      refine ⟨st', ?_, (Nat.le_succ _).trans hle, hlt, hreads', ?_⟩
      · rw [if_pos hnext, List.getElem?_eq_getElem hnext]
        exact hrun
      · rw [List.drop_eq_getElem_cons hnext, pending_succ]
        exact hout
    · refine ⟨st, if_neg hnext, le_rfl, hi, hreads, ?_⟩
      rw [List.drop_eq_nil_of_le (by omega), pending_nil]
      rfl

/-- The outer loop ends, within a round for each byte that is left. -/
theorem decodeLoop_spec {s : Str} : ∀ (fuel i : ℕ) (out : List UInt32), i ≤ s.length →
    s.length ≤ fuel + i →
    decodeLoop s fuel i (List.range i) out
      = some (out ++ decode_codepoints (s.drop i), List.range s.length) := by
  have hend : ∀ out : List UInt32, (out, List.range s.length)
      = (out ++ decode_codepoints (s.drop s.length), List.range s.length) := fun out => by
    rw [List.drop_length, show decode_codepoints [] = [] from rfl, List.append_nil]
  intro fuel
  induction fuel with
  | zero =>
    intro i out hi hfuel
    obtain rfl : i = s.length := by omega
    rw [decodeLoop, if_neg (Nat.lt_irrefl _), hend]
  | succ fuel ih =>
    intro i out hi hfuel
    unfold decodeLoop
    by_cases hlt : i < s.length
    · obtain ⟨st', hrun, hle, hlt', hreads, hout⟩ := trailLoop_spec (leadByte s[i]).2
        { i := i, cp := (leadByte s[i]).1, reads := List.range i ++ [i] } hlt
        (List.range_succ).symm
      rw [if_pos hlt, List.getElem?_eq_getElem hlt, Option.bind_some, hrun, Option.bind_some,
        hreads, ih _ _ (by omega) (by dsimp only at hle; omega), List.drop_eq_getElem_cons hlt,
        decode_codepoints_cons, hout, List.append_assoc]
      rfl
    · obtain rfl : i = s.length := by omega
      rw [if_neg hlt, hend]

/-- Texts in UTF-8 are decoded to their characters, and any bytes are read once each, in order and
not past the end, with no more code points than bytes. -/
theorem decode_codepoints_exact :
    (∀ cs : List Char, decode_codepoints (Utf8.encode cs) = cs.map (·.val))
      ∧ ∀ s : Str, (∀ fuel, s.length ≤ fuel →
          decodeLoop s fuel 0 [] [] = some (decode_codepoints s, List.range s.length))
        ∧ (decode_codepoints s).length ≤ s.length :=
  ⟨decode_encode, fun s => ⟨fun fuel hfuel => decodeLoop_spec fuel 0 [] (Nat.zero_le _) hfuel,
    length_decode_codepoints_le s⟩⟩

end Praxis
