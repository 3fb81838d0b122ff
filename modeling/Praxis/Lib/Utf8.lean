import Mathlib.Data.List.Basic

/-!
# Texts in UTF-8

A text is valid if it encodes some characters. The encodings of characters are a prefix code, so
what is left of a valid text after a valid one is valid too (`Valid.of_append`): a text may be cut
between characters and nowhere else.
-/

namespace Utf8

variable {s t : List UInt8} {c d : Char} {b : UInt8}

def encode (cs : List Char) : List UInt8 := cs.flatMap String.utf8EncodeChar

def Valid (s : List UInt8) : Prop := ∃ cs, s = encode cs

/-- The same as for the bytes of a `String`, so it can be decided. -/
theorem valid_iff : Valid s ↔ s.toByteArray.IsValidUTF8 := by
  constructor
  · rintro ⟨cs, rfl⟩
    exact ⟨cs, rfl⟩
  · rintro ⟨cs, h⟩
    have hdata := congrArg (fun b : ByteArray => b.data.toList) h
    exact ⟨cs, by simpa [encode, List.utf8Encode] using hdata⟩

instance : Decidable (Valid s) := decidable_of_iff _ valid_iff.symm

theorem encode_append (cs ds : List Char) : encode (cs ++ ds) = encode cs ++ encode ds :=
  List.flatMap_append

theorem valid_nil : Valid [] := ⟨[], rfl⟩

theorem Valid.append (hs : Valid s) (ht : Valid t) : Valid (s ++ t) := by
  obtain ⟨cs, rfl⟩ := hs
  obtain ⟨ds, rfl⟩ := ht
  exact ⟨cs ++ ds, (encode_append cs ds).symm⟩

/-- No character's encoding begins another's. -/
theorem encodeChar_append_inj (h : String.utf8EncodeChar c ++ s = String.utf8EncodeChar d ++ t) :
    c = d ∧ s = t := by
  have hdecode : ∀ (c : Char) (s : List UInt8),
      (String.utf8EncodeChar c ++ s).toByteArray.utf8DecodeChar? 0 = some c := fun c s => by
    rw [List.toByteArray_append]
    exact ByteArray.utf8DecodeChar?_utf8EncodeChar_append
  have hc : c = d := Option.some.inj ((hdecode c s).symm.trans (h ▸ hdecode d t))
  subst hc
  exact ⟨rfl, List.append_cancel_left h⟩

/-- What follows a valid text in a valid text is valid. -/
theorem Valid.of_append (hs : Valid s) (h : Valid (s ++ t)) : Valid t := by
  obtain ⟨cs, rfl⟩ := hs
  induction cs with
  | nil => exact h
  | cons c cs ih =>
    obtain ⟨ds, hds⟩ := h
    rw [encode, List.flatMap_cons, List.append_assoc] at hds
    cases ds with
    | nil =>
      have hlength := congrArg List.length hds
      simp only [List.length_append, String.length_utf8EncodeChar, encode, List.flatMap_nil,
        List.length_nil] at hlength
      have := c.utf8Size_pos
      omega
    | cons d ds => exact ih ⟨ds, (encodeChar_append_inj hds).2⟩

/-! ## Single bytes -/

theorem encodeChar_ofUInt8 (hb : b < 128) : String.utf8EncodeChar (Char.ofUInt8 b) = [b] := by
  have hsize : (Char.ofUInt8 b).utf8Size = 1 := by
    rw [Char.utf8Size_eq_one_iff, UInt32.le_iff_toNat_le]
    have hlt : b.toNat < 128 := UInt8.lt_iff_toNat_lt.1 hb
    have hval : (Char.ofUInt8 b).val.toNat = b.toNat := UInt8.toNat_toUInt32 b
    have hmax : (127 : UInt32).toNat = 127 := rfl
    omega
  rw [String.utf8EncodeChar_eq_singleton hsize]
  exact congrArg (fun b => [b]) (UInt8.toUInt8_toUInt32 b)

theorem valid_ascii : ∀ {s : List UInt8}, (∀ b ∈ s, b < 128) → Valid s
  | [], _ => valid_nil
  | b :: s, h => by
    obtain ⟨hb, hs⟩ := List.forall_mem_cons.1 h
    exact Valid.append (s := [b]) ⟨[(Char.ofUInt8 b)], by simp [encode, encodeChar_ofUInt8 hb]⟩
      (valid_ascii hs)

end Utf8
