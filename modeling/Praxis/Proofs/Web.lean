import Praxis.Lib.Base64
import Praxis.Lib.Text
import Praxis.Web
import Mathlib.Tactic.IntervalCases

/-!
# Who is let in

The decoder's buffer is 32 bits wide and never cleared, but only the bits that have not been given
out come to count again. So it gives the bytes of the digits that it reads, and the check of
credentials lets in whoever spells the configured user and password (`check_auth_iff`).
-/

namespace Praxis

open Base64 (bytes char sextets encode unpadded sextets_lt bytes_sextets)

theorem push_toNat (buf : UInt32) {v : UInt8} (hv : v.toNat < 64) :
    ((buf <<< 6) ||| v.toUInt32).toNat = buf.toNat * 64 % 2 ^ 32 + v.toNat := by
  have hshift : buf.toNat * 64 % 2 ^ 32 = (buf.toNat % 2 ^ 26) <<< 6 := by
    rw [Nat.shiftLeft_eq]
    omega
  rw [UInt32.toNat_or, UInt32.toNat_shiftLeft, UInt8.toNat_toUInt32, hshift,
    Nat.shiftLeft_add_eq_or_of_lt (by omega : v.toNat < 2 ^ 6)]
  congr 1
  rw [Nat.shiftLeft_eq, Nat.shiftLeft_eq]
  simp
  omega

/-- A full byte comes from the bits that have not been given out yet. -/
theorem push_byte (buf : UInt32) {v : UInt8} (hv : v.toNat < 64) {bits : ℕ} (hbits : bits < 8)
    (hfull : 8 ≤ bits + 6) :
    ((((buf <<< 6) ||| v.toUInt32) >>> UInt32.ofNat (bits + 6 - 8)) &&& 0xff).toUInt8
      = UInt8.ofNat ((buf.toNat % 2 ^ bits * 64 + v.toNat) / 2 ^ (bits - 2)) := by
  have hb := buf.toNat_lt
  have hk : bits + 6 - 8 < 2 ^ 32 := by omega
  apply UInt8.toNat_inj.1
  rw [UInt32.toNat_toUInt8, UInt32.toNat_and, UInt32.toNat_shiftRight, push_toNat buf hv,
    UInt8.toNat_ofNat', UInt32.toNat_ofNat_of_lt' hk, Nat.mod_eq_of_lt (by omega : _ < 32),
    Nat.shiftRight_eq_div_pow, show (0xff : UInt32).toNat = 2 ^ 8 - 1 from rfl,
    Nat.and_two_pow_sub_one_eq_mod, Nat.mod_mod]
  have hlow : 2 ≤ bits := by omega
  clear hfull hk
  interval_cases bits <;> omega

/-- The bits that stay after a full byte. -/
theorem push_rest (buf : UInt32) {v : UInt8} (hv : v.toNat < 64) {bits : ℕ} (hbits : bits < 8) :
    ((buf <<< 6) ||| v.toUInt32).toNat % 2 ^ (bits - 2)
      = (buf.toNat % 2 ^ bits * 64 + v.toNat) % 2 ^ (bits - 2) := by
  rw [push_toNat buf hv]
  interval_cases bits <;> omega

theorem push_more (buf : UInt32) {v : UInt8} (hv : v.toNat < 64) {bits : ℕ} (hbits : bits < 2) :
    ((buf <<< 6) ||| v.toUInt32).toNat % 2 ^ (bits + 6)
      = buf.toNat % 2 ^ bits * 64 + v.toNat := by
  rw [push_toNat buf hv]
  interval_cases bits <;> omega

/-- What a decoder of credentials may find between the characters of a text. -/
def Blank (c : UInt8) : Prop := c = 32 ∨ c = 13 ∨ c = 10

instance : DecidablePred Blank := fun c => inferInstanceAs (Decidable (c = 32 ∨ c = 13 ∨ c = 10))

/-- The text is base64 for the bytes, padded or not, with blanks and line breaks anywhere. -/
def Spells (text bs : Str) : Prop :=
  text.filter (fun c => ¬ Blank c) = encode bs ∨ text.filter (fun c => ¬ Blank c) = unpadded bs

instance (text bs : Str) : Decidable (Spells text bs) :=
  inferInstanceAs (Decidable (_ = _ ∨ _ = _))

/-- The characters that the loop reads. -/
def digits (text : Str) : Str := text.filter fun c => ¬ (c = 61 ∨ c = 13 ∨ c = 10 ∨ c = 32)

section Digits

variable {c : UInt8} {text : Str}

theorem digits_cons_skip (h : c = 61 ∨ c = 13 ∨ c = 10 ∨ c = 32) :
    digits (c :: text) = digits text :=
  List.filter_cons_of_neg fun hc => of_decide_eq_true hc h

theorem digits_cons (h : ¬ (c = 61 ∨ c = 13 ∨ c = 10 ∨ c = 32)) :
    digits (c :: text) = c :: digits text :=
  List.filter_cons_of_pos (decide_eq_true h)

end Digits

theorem b64_value_char : ∀ d < 64, (b64_value (char d)).toNat = d ∧ b64_value (char d) ≠ 0xff
    ∧ ¬ (char d = 61 ∨ char d = 13 ∨ char d = 10 ∨ char d = 32) := by decide

theorem digits_eq_filter (text : Str) :
    digits text = (text.filter fun c => ¬ Blank c).filter fun c => c ≠ 61 := by
  rw [digits, List.filter_filter]
  refine List.filter_congr fun c _ => ?_
  rw [← Bool.decide_and]
  refine decide_eq_decide.2 ?_
  unfold Blank
  grind

theorem filter_chars {ds : List ℕ} (hds : ∀ d ∈ ds, d < 64) :
    (ds.map char).filter (fun c => c ≠ 61) = ds.map char := by
  refine List.filter_eq_self.2 fun c hc => ?_
  obtain ⟨d, hd, rfl⟩ := List.mem_map.1 hc
  have hskip := (b64_value_char d (hds d hd)).2.2
  simpa using fun h => hskip (.inl h)

/-- The padding and the blanks make no difference. -/
theorem digits_of_spells {text bs : Str} (h : Spells text bs) :
    digits text = (sextets bs).map char := by
  rw [digits_eq_filter]
  rcases h with h | h
  · rw [h, encode, List.filter_append, unpadded, filter_chars sextets_lt]
    simp
  · rw [h, unpadded, filter_chars sextets_lt]

/-- The loop gives the bytes of the digits after the bits that have not been given out. -/
theorem b64_loop_eq : ∀ {in_ : Str} {ds : List ℕ} {bits : ℕ} {buf : UInt32} {out : Str},
    (∀ d ∈ ds, d < 64) → digits in_ = ds.map char → bits < 8 →
      b64_loop bits buf out in_ = out ++ bytes bits (buf.toNat % 2 ^ bits) ds
  | [], ds, bits, buf, out, _, h, _ => by
    obtain rfl := List.map_eq_nil_iff.1 h.symm
    simp [b64_loop, bytes]
  | c :: in_, ds, bits, buf, out, hds, h, hbits => by
    by_cases hskip : c = 61 ∨ c = 13 ∨ c = 10 ∨ c = 32
    · rw [b64_loop, if_pos hskip]
      exact b64_loop_eq hds ((digits_cons_skip hskip).symm.trans h) hbits
    · rw [digits_cons hskip] at h
      obtain ⟨d, ds, rfl, rfl, hrest⟩ := List.map_eq_cons_iff.1 h.symm
      obtain ⟨hd, hds⟩ := List.forall_mem_cons.1 hds
      obtain ⟨hvalue, hvalid, -⟩ := b64_value_char d hd
      have hv : (b64_value (char d)).toNat < 64 := by omega
      rw [b64_loop, if_neg hskip]
      simp only [if_neg hvalid]
      by_cases hfull : 8 ≤ bits + 6
      · rw [if_pos hfull, bytes, if_neg (by omega), b64_loop_eq hds hrest.symm (by omega),
          push_byte buf hv hbits hfull, hvalue, List.append_assoc, List.singleton_append,
          show bits + 6 - 8 = bits - 2 by omega, push_rest buf hv hbits, hvalue]
      · rw [if_neg hfull, bytes, if_pos (by omega), b64_loop_eq hds hrest.symm (by omega),
          push_more buf hv (by omega), hvalue]

theorem b64_decode_of_spells {text bs : Str} (h : Spells text bs) : b64_decode text = bs := by
  rw [b64_decode, b64_loop_eq sextets_lt (digits_of_spells h) (by omega), List.nil_append]
  exact bytes_sextets bs

section Check

variable {opts : CliOptions} {req : Request}

theorem require_auth_of_ne (huser : opts.web_user ≠ []) (hpass : opts.web_pass ≠ []) :
    opts.require_auth = true := by
  rw [CliOptions.require_auth, List.isEmpty_eq_false_iff.2 huser, List.isEmpty_eq_false_iff.2 hpass]
  rfl

/-- A text whose bytes are the user, a colon and the password, and no other, is let in. -/
theorem check_auth_eq_true (huser : opts.web_user ≠ []) (hcolon : (58 : UInt8) ∉ opts.web_user)
    (hpass : opts.web_pass ≠ []) :
    check_auth opts req = true ↔ ∃ text, req.headers (lit "Authorization")
      = some (lit "Basic " ++ text) ∧ b64_decode text = opts.web_user ++ 58 :: opts.web_pass := by
  rw [check_auth, require_auth_of_ne huser hpass]
  simp only [Bool.not_true, Bool.false_eq_true, if_false]
  rcases req.headers (lit "Authorization") with _ | value
  · simp
  constructor
  · intro h
    dsimp only at h
    split_ifs at h with hpre
    obtain ⟨-, htake⟩ := not_or.1 hpre
    split at h
    · cases h
    · next colon hfind =>
      obtain ⟨hu, hp⟩ := Bool.and_eq_true_iff.1 h
      refine ⟨value.drop (lit "Basic ").length, ?_, ?_⟩
      · nth_rewrite 1 [← List.take_append_drop (lit "Basic ").length value]
        rw [not_not.1 htake]
      · rw [← Framing.take_append_drop_of_find hfind, beq_iff_eq.1 hu, List.length_singleton,
          beq_iff_eq.1 hp, List.append_assoc, List.singleton_append]
  · rintro ⟨text, hvalue, hdecode⟩
    obtain rfl := Option.some.inj hvalue
    have htext : text ≠ [] := by
      rintro rfl
      exact absurd (congrArg List.length hdecode) (by simp [b64_decode, b64_loop])
    have hpre : ¬ ((lit "Basic " ++ text).length ≤ (lit "Basic ").length
        ∨ (lit "Basic " ++ text).take (lit "Basic ").length ≠ lit "Basic ") := by
      rw [List.take_left, List.length_append]
      have hlength := List.length_pos_of_ne_nil htext
      exact not_or.2 ⟨by omega, by simp⟩
    dsimp only
    rw [if_neg hpre, List.drop_left, hdecode, Framing.find_singleton _ hcolon]
    simp

/-- Whoever knows the user and the password is let in, and nobody else. -/
theorem check_auth_iff (huser : opts.web_user ≠ []) (hcolon : (58 : UInt8) ∉ opts.web_user)
    (hpass : opts.web_pass ≠ []) (req : Request) :
    (check_auth opts req = true ↔ ∃ text, req.headers (lit "Authorization")
        = some (lit "Basic " ++ text) ∧ b64_decode text = opts.web_user ++ 58 :: opts.web_pass)
      ∧ ∀ u p text, (58 : UInt8) ∉ u → Spells text (u ++ 58 :: p) →
        req.headers (lit "Authorization") = some (lit "Basic " ++ text) →
          (check_auth opts req = true ↔ u = opts.web_user ∧ p = opts.web_pass) := by
  refine ⟨check_auth_eq_true huser hcolon hpass, fun u p text hu hspells hvalue => ?_⟩
  have hdecode := b64_decode_of_spells hspells
  rw [check_auth_eq_true huser hcolon hpass]
  constructor
  · rintro ⟨text', hvalue', hdecode'⟩
    obtain rfl := List.append_cancel_left (Option.some.inj (hvalue.symm.trans hvalue'))
    exact Text.append_sep_inj hu hcolon (hdecode.symm.trans hdecode')
  · rintro ⟨rfl, rfl⟩
    exact ⟨text, hvalue, hdecode⟩

def panel : CliOptions := ⟨lit "us", lit "p"⟩

def asking (value : Str) : Request :=
  ⟨fun name => if name = lit "Authorization" then some value else none⟩

theorem check_auth_iff_spaced : check_auth panel (asking (lit "Basic dXM6 cA==")) = true :=
  ((check_auth_iff (show panel.web_user ≠ [] by decide) (by decide) (by decide)
    (asking (lit "Basic dXM6 cA=="))).2 (lit "us") (lit "p") (lit "dXM6 cA==") (by decide)
      (by decide) (by decide)).2 ⟨rfl, rfl⟩

end Check

end Praxis
