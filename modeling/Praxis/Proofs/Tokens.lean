import Praxis.Context
import Praxis.Lib.Text
import Praxis.Lib.Utf8
import Mathlib.Data.FinEnum

/-!
# What the token estimate counts

`decode_codepoints` finds the code points of a text in UTF-8, and `estimate_tokens` is to count its
words and its wide code points. A word that a wide code point follows at once is counted a second
time (`estimate_tokens_iff`).
-/

namespace Praxis

/-! ## Decoding -/

/-- The byte that continues a code point, with the last six bits of `w`. -/
def trailByte (w : UInt32) : UInt8 := w.toUInt8 &&& 0x3f ||| 0x80

theorem trailByte_bits : ∀ b : UInt8, (b &&& 0x3f ||| 0x80) &&& 0x3F = b &&& 0x3f := by
  decide +kernel

theorem leadByte_one : ∀ b : UInt8, b < 128 → leadByte b = (b.toUInt32, 0) := by
  decide +kernel

theorem leadByte_two :
    ∀ b : UInt8, leadByte (b &&& 0x1f ||| 0xc0) = ((b &&& 0x1f).toUInt32, 1) := by
  decide +kernel

theorem leadByte_three :
    ∀ b : UInt8, leadByte (b &&& 0x0f ||| 0xe0) = ((b &&& 0x0f).toUInt32, 2) := by
  decide +kernel

theorem leadByte_four :
    ∀ b : UInt8, leadByte (b &&& 0x07 ||| 0xf0) = ((b &&& 0x07).toUInt32, 3) := by
  decide +kernel

theorem continued (w : UInt32) :
    ((w >>> 6) <<< 6) ||| (trailByte w &&& 0x3F).toUInt32 = w := by
  have hlow : w.toNat % 256 &&& 63 = w.toNat % 2 ^ 6 := by
    rw [show (63 : ℕ) = 2 ^ 6 - 1 from rfl, Nat.and_two_pow_sub_one_eq_mod]
    omega
  have hhigh : w.toNat >>> 6 <<< 6 % 4294967296 = w.toNat >>> 6 <<< 6 := by
    have hw := w.toNat_lt
    rw [Nat.shiftLeft_eq, Nat.shiftRight_eq_div_pow]
    omega
  have hbits : w.toNat >>> 6 <<< 6 ||| w.toNat % 2 ^ 6 = w.toNat := by
    rw [← Nat.shiftLeft_add_eq_or_of_lt (Nat.mod_lt _ (by decide)), Nat.shiftLeft_eq,
      Nat.shiftRight_eq_div_pow]
    omega
  rw [trailByte, trailByte_bits, ← UInt32.toNat_inj]
  simpa [hlow, hhigh] using hbits

/-- The rest of the leading byte is what stands before the bits of the bytes to come. -/
theorem lead_bits {w m : UInt32} {n : ℕ} (hm : m.toNat = 2 ^ n - 1) (hn : n ≤ 8)
    (hw : w.toNat < 2 ^ n) : (w.toUInt8 &&& m.toUInt8).toUInt32 = w := by
  have hle : 2 ^ n ≤ 2 ^ 8 := Nat.pow_le_pow_right (by decide) hn
  rw [← UInt32.toNat_inj, UInt8.toNat_toUInt32, UInt8.toNat_and, UInt32.toNat_toUInt8,
    UInt32.toNat_toUInt8, hm, Nat.mod_eq_of_lt (a := w.toNat) (by omega),
    Nat.mod_eq_of_lt (by omega), Nat.and_two_pow_sub_one_eq_mod, Nat.mod_eq_of_lt hw]

theorem decodeFrom_trail (w : UInt32) (extra : ℕ) (s : Str) :
    decodeFrom (w >>> 6) (extra + 1) (trailByte w :: s)
      = if extra = 0 then w :: decodeFrom 0 0 s else decodeFrom w extra s := by
  rw [decodeFrom]
  simp only [continued]

theorem shiftRight_twelve (w : UInt32) : w >>> 12 = (w >>> 6) >>> 6 := by
  rw [← UInt32.toNat_inj]
  simp only [UInt32.toNat_shiftRight]
  exact Nat.shiftRight_add w.toNat 6 6

theorem shiftRight_eighteen (w : UInt32) : w >>> 18 = (w >>> 12) >>> 6 := by
  rw [← UInt32.toNat_inj]
  simp only [UInt32.toNat_shiftRight]
  exact Nat.shiftRight_add w.toNat 12 6

/-- The bytes of a character are decoded to it. -/
theorem decodeFrom_char (c : Char) (s : Str) :
    decodeFrom 0 0 (String.utf8EncodeChar c ++ s) = c.val :: decodeFrom 0 0 s := by
  have hvalid : c.val.toNat < 0x110000 := by
    rcases c.valid with h | h <;> omega
  rcases c.utf8Size_eq with h | h | h | h
  · have hlt : c.val.toNat ≤ 127 := UInt32.le_iff_toNat_le.1 (Char.utf8Size_eq_one_iff.1 h)
    have hbyte : c.val.toUInt8.toNat = c.val.toNat := Nat.mod_eq_of_lt (by omega)
    have hlead : leadByte c.val.toUInt8 = (c.val, 0) := by
      rw [leadByte_one _ (UInt8.lt_iff_toNat_lt.2 (hbyte ▸ Nat.lt_succ_of_le hlt))]
      exact congrArg (·, 0) (UInt32.toNat_inj.1 hbyte)
    rw [String.utf8EncodeChar_eq_singleton h, List.singleton_append, decodeFrom, hlead]
  · have hlt : c.val.toNat ≤ 0x7ff := UInt32.le_iff_toNat_le.1 (Char.utf8Size_eq_two_iff.1 h).2
    have hlead : ((c.val >>> 6).toUInt8 &&& 0x1f).toUInt32 = c.val >>> 6 :=
      lead_bits (m := 0x1f) (n := 5) rfl (by decide) (by
        rw [UInt32.toNat_shiftRight, Nat.shiftRight_eq_div_pow]
        show c.val.toNat / 2 ^ 6 < _
        omega)
    rw [String.utf8EncodeChar_eq_cons_cons h]
    simp only [List.cons_append, List.nil_append]
    rw [decodeFrom, leadByte_two, hlead]
    exact decodeFrom_trail c.val 0 s
  · have hlt : c.val.toNat ≤ 0xffff := UInt32.le_iff_toNat_le.1 (Char.utf8Size_eq_three_iff.1 h).2
    have hlead : ((c.val >>> 12).toUInt8 &&& 0x0f).toUInt32 = c.val >>> 12 :=
      lead_bits (m := 0x0f) (n := 4) rfl (by decide) (by
        rw [UInt32.toNat_shiftRight, Nat.shiftRight_eq_div_pow]
        show c.val.toNat / 2 ^ 12 < _
        omega)
    rw [String.utf8EncodeChar_eq_cons_cons_cons h]
    simp only [List.cons_append, List.nil_append]
    rw [decodeFrom, leadByte_three, hlead, shiftRight_twelve]
    exact (decodeFrom_trail (c.val >>> 6) 1 _).trans (decodeFrom_trail c.val 0 s)
  · have hlead : ((c.val >>> 18).toUInt8 &&& 0x07).toUInt32 = c.val >>> 18 :=
      lead_bits (m := 0x07) (n := 3) rfl (by decide) (by
        rw [UInt32.toNat_shiftRight, Nat.shiftRight_eq_div_pow]
        show c.val.toNat / 2 ^ 18 < _
        omega)
    rw [String.utf8EncodeChar_eq_cons_cons_cons_cons h]
    simp only [List.cons_append, List.nil_append]
    rw [decodeFrom, leadByte_four, hlead, shiftRight_eighteen]
    refine (decodeFrom_trail (c.val >>> 12) 2 _).trans ?_
    rw [shiftRight_twelve]
    exact (decodeFrom_trail (c.val >>> 6) 1 _).trans (decodeFrom_trail c.val 0 s)

def codePoints (cs : List Char) : List UInt32 := cs.map (·.val)

theorem decode_encode (cs : List Char) : decode_codepoints (Utf8.encode cs) = codePoints cs := by
  induction cs with
  | nil => rfl
  | cons c cs ih => exact (decodeFrom_char c _).trans (congrArg (c.val :: ·) ih)

/-! ## Words and wide code points -/

def isWide (cp : UInt32) : Bool := 0x80 ≤ cp

/-- ASCII, but none of the blanks. -/
def isWord (cp : UInt32) : Bool := cp < 0x80 ∧ cp ≠ 32 ∧ cp ≠ 10 ∧ cp ≠ 9

/-- The wide code points that end a word, `in_word` saying that one has begun. -/
def crossings : Bool → List UInt32 → ℕ
  | _, [] => 0
  | in_word, cp :: cps =>
    (if in_word ∧ isWide cp then 1 else 0) + crossings (isWord cp) cps

/-- Words, wide code points, and once more each word that a wide code point ends. -/
theorem countTokens_eq (in_word : Bool) (n : ℕ) (cps : List UInt32) :
    countTokens in_word n cps + (if in_word ∧ cps.head?.any isWord then 1 else 0)
      = n + (Text.runs isWord cps).length + (cps.filter isWide).length
        + crossings in_word cps := by
  induction cps generalizing in_word n with
  | nil => simp [countTokens, crossings, Text.runs_nil]
  | cons cp cps ih =>
    rw [countTokens, crossings]
    by_cases hblank : cp = 32 ∨ cp = 10 ∨ cp = 9
    · have hword : isWord cp = false := by simp [isWord, ← not_or, hblank]
      have hnarrow : isWide cp = false := by rcases hblank with rfl | rfl | rfl <;> rfl
      have ih := ih false n
      rw [if_pos hblank, Text.runs_cons_of_not hword, List.filter_cons_of_neg (by simp [hnarrow])]
      simp only [hword, hnarrow, List.head?_cons, Option.any_some, Bool.false_eq_true, and_false,
        false_and, if_false] at ih ⊢
      omega
    · rw [if_neg hblank]
      by_cases hwide : 0x80 ≤ cp
      · have hword : isWord cp = false := by simp [isWord, hwide]
        have hw : isWide cp = true := by simp [isWide, hwide]
        have ih := ih false ((if in_word then n + 1 else n) + 1)
        rw [if_pos hwide, Text.runs_cons_of_not hword, List.filter_cons_of_pos hw,
          List.length_cons]
        simp only [hword, hw, List.head?_cons, Option.any_some, Bool.false_eq_true, and_false,
          and_true, false_and, if_false] at ih ⊢
        split_ifs at ih ⊢ <;> omega
      · have hword : isWord cp = true := by
          simp [isWord, UInt32.not_le.1 hwide, not_or.1 hblank, not_or.1 (not_or.1 hblank).2]
        have hnarrow : isWide cp = false := by simp [isWide, hwide]
        have hrun := Text.length_runs_cons hword cps
        have ih := ih true (if in_word then n else n + 1)
        rw [if_neg hwide, List.filter_cons_of_neg (by simp [hnarrow])]
        simp only [hword, hnarrow, List.head?_cons, Option.any_some, Bool.false_eq_true, and_false,
          and_true, true_and, if_false] at ih ⊢
        split_ifs at ih hrun ⊢ <;> omega

theorem crossings_eq_zero (cp : UInt32) (cps : List UInt32) :
    crossings (isWord cp) cps = 0 ↔ (cp :: cps).IsChain fun a b => ¬ (isWord a ∧ isWide b) := by
  induction cps generalizing cp with
  | nil => simp [crossings]
  | cons next cps ih =>
    rw [crossings, List.isChain_cons_cons, ← ih next, Nat.add_eq_zero_iff]
    refine and_congr_left' ?_
    split_ifs with h <;> simp [h]

/-- The estimate is the number of words and wide code points if and only if no wide code point
comes right after a word. -/
theorem estimate_tokens_iff (cs : List Char) :
    estimate_tokens (Utf8.encode cs)
        = (Text.runs isWord (codePoints cs)).length + ((codePoints cs).filter isWide).length
      ↔ (codePoints cs).IsChain fun a b => ¬ (isWord a ∧ isWide b) := by
  have hcount := countTokens_eq false 0 (codePoints cs)
  rw [estimate_tokens, decode_encode]
  simp only [Bool.false_eq_true, false_and, if_false] at hcount
  have hcross : crossings false (codePoints cs) = 0 ↔
      (codePoints cs).IsChain fun a b => ¬ (isWord a ∧ isWide b) := by
    rcases codePoints cs with _ | ⟨cp, cps⟩
    · simp [crossings]
    · rw [← crossings_eq_zero]
      simp [crossings]
  rw [← hcross]
  omega

/-- A letter and then a Chinese character. -/
def letterThenWide : List Char := [Char.ofNat 97, Char.ofNat 20013]

theorem estimate_tokens_letterThenWide :
    estimate_tokens (Utf8.encode letterThenWide)
      ≠ (Text.runs isWord (codePoints letterThenWide)).length
        + ((codePoints letterThenWide).filter isWide).length := by
  decide

end Praxis
