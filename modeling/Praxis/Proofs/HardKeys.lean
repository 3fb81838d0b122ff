import Praxis.Proofs.Fingerprint
import Praxis.Proofs.Rebuild

/-!
# Integers as hard keys

Every integer field goes through a signed 64-bit number. So an integer keeps its value as a hard
key exactly if it is below 2^63, and two of them come to one text exactly if they are 2^64 apart
(`integer_hard_key_iff`).
-/

namespace Praxis

/-- A value that the JSON library holds as a 64-bit integer. -/
inductive Json.IsInt : Json → ℤ → Prop
  | signed {i : ℤ} (hlo : -2 ^ 63 ≤ i) (hhi : i < 2 ^ 63) : Json.IsInt (.number_integer i) i
  | unsigned {n : ℕ} (hhi : n < 2 ^ 64) : Json.IsInt (.number_unsigned n) n

theorem chars_decimal (n : ℕ) :
    (decimal n).map (fun b => Char.ofNat b.toNat) = Nat.toDigits 10 n := by
  unfold decimal
  rw [List.map_map]
  refine (List.map_congr_left fun c hc => ?_).trans (List.map_id _)
  have hdigit := Nat.isDigit_of_mem_toDigits (by decide) le_rfl hc
  have hle : c.toNat ≤ 57 := by
    simp only [Char.isDigit, Bool.and_eq_true, decide_eq_true_eq] at hdigit
    exact hdigit.2
  simp only [Function.comp_apply, id_eq]
  rw [show c.toNat.toUInt8.toNat = c.toNat from Nat.mod_eq_of_lt (by omega), Char.ofNat_toNat]

theorem decimal_injective {m n : ℕ} (h : decimal m = decimal n) : m = n := by
  have hchars := chars_decimal m
  rw [h, chars_decimal n] at hchars
  rw [← @Nat.ofDigitChars_ten_toDigits m, ← hchars, Nat.ofDigitChars_ten_toDigits]

theorem minus_not_mem_decimal (n : ℕ) : 45 ∉ decimal n := fun h => by
  have hmem := List.mem_map_of_mem (f := fun b : UInt8 => Char.ofNat b.toNat) h
  rw [chars_decimal] at hmem
  exact absurd (Nat.isDigit_of_mem_toDigits (by decide) le_rfl hmem) (by decide)

theorem decimal_ne_minus (n : ℕ) (s : Str) : decimal n ≠ lit "-" ++ s := fun h =>
  minus_not_mem_decimal n (by rw [h]; exact List.mem_append_left _ (by decide))

theorem decimalInt_injective : ∀ {i j : ℤ}, decimalInt i = decimalInt j → i = j
  | .ofNat m, .ofNat n, h => congrArg Int.ofNat (decimal_injective h)
  | .ofNat m, .negSucc n, h => absurd h (decimal_ne_minus m (decimal (n + 1)))
  | .negSucc m, .ofNat n, h => absurd h.symm (decimal_ne_minus n (decimal (m + 1)))
  | .negSucc m, .negSucc n, h => by
    have happend : lit "-" ++ decimal (m + 1) = lit "-" ++ decimal (n + 1) := h
    rw [Nat.succ.inj (decimal_injective (List.append_cancel_left happend))]

/-- The value of an integer as a `long long`. -/
def wrapped (i : ℤ) : ℤ := if i < 2 ^ 63 then i else i - 2 ^ 64

theorem toInt_ofInt {i : ℤ} (hlo : -2 ^ 63 ≤ i) (hhi : i < 2 ^ 64) :
    (Int64.ofInt i).toInt = wrapped i := by
  rw [Int64.toInt_ofInt, Int.bmod_def, wrapped]
  norm_num
  split_ifs <;> omega

theorem Json.IsInt.bounds {value : Json} {i : ℤ} (h : value.IsInt i) :
    -2 ^ 63 ≤ i ∧ i < 2 ^ 64 := by
  cases h with
  | signed hlo hhi => exact ⟨hlo, by omega⟩
  | unsigned hhi => exact ⟨by omega, by exact_mod_cast hhi⟩

theorem scalarText_int {value : Json} {i : ℤ} (h : value.IsInt i) :
    scalarText value = some (decimalInt (wrapped i)) := by
  obtain ⟨hlo, hhi⟩ := h.bounds
  rw [← toInt_ofInt hlo hhi]
  cases h with
  | signed => rfl
  | unsigned => rfl

theorem wrapped_eq_self_iff {i : ℤ} : wrapped i = i ↔ i < 2 ^ 63 := by
  unfold wrapped
  split_ifs <;> omega

theorem wrapped_eq_iff {i j : ℤ} (hi : -2 ^ 63 ≤ i ∧ i < 2 ^ 64) (hj : -2 ^ 63 ≤ j ∧ j < 2 ^ 64) :
    wrapped i = wrapped j ↔ i = j ∨ i = j + 2 ^ 64 ∨ j = i + 2 ^ 64 := by
  unfold wrapped
  split_ifs <;> omega

section Fields

variable {T : JsonText} {content key : Str} {fields : List (Str × Json)} {value : Json}

/-- A field of an object is the only one of its name. -/
theorem scalarField_of_mem (hcontent : content ≠ [])
    (hparse : T.parse content = some (.object fields))
    (hdistinct : (fields.map Prod.fst).Nodup) (hfield : (key, value) ∈ fields) :
    scalarField T content key = scalarText value := by
  obtain ⟨before, after, rfl⟩ := List.append_of_mem hfield
  have hkeys : ∀ f ∈ before ++ after, f.1 ≠ key := by
    rw [List.map_append, List.map_cons, List.nodup_middle, List.nodup_cons, ← List.map_append]
      at hdistinct
    rintro f hf rfl
    exact hdistinct.1 (List.mem_map.2 ⟨f, hf, rfl⟩)
  have hnone : ∀ fs : List (Str × Json), (∀ f ∈ fs, f.1 ≠ key) →
      fs.findSome? (fun f => if f.1 = key then scalarText f.2 else none) = none := fun fs hfs =>
    List.findSome?_eq_none_iff.2 fun f hf => if_neg (hfs f hf)
  unfold scalarField
  rw [if_neg (by simpa using hcontent), hparse]
  dsimp only
  rw [List.reverse_append, List.reverse_cons, List.findSome?_append, List.findSome?_append,
    hnone _ fun f hf => hkeys f (List.mem_append_right _ (List.mem_reverse.1 hf)),
    hnone _ fun f hf => hkeys f (List.mem_append_left _ (List.mem_reverse.1 hf))]
  simp

theorem hard_fingerprint_single {type text : Str} (hcontent : content ≠ [])
    (hparse : T.parse content = some (.object [(key, value)]))
    (htext : scalarText value = some text) :
    (Digest.build T type content).hard_fingerprint
      = type ++ lit "\n" ++ (key ++ lit "=" ++ text ++ lit "\n") := by
  have hlist : (hard_keys T content).toList = [(key, text)] := by
    unfold hard_keys
    rw [if_neg (by simpa using hcontent), hparse]
    dsimp only
    rw [List.foldl_cons, List.foldl_nil, htext]
    have hperm := Std.TreeMap.toList_insert_perm (t := (∅ : HardKeys)) (k := key) (v := text)
    rw [show (∅ : HardKeys).toList = [] from rfl, List.filter_nil] at hperm
    exact List.perm_singleton.1 hperm
  unfold Digest.build HardKeys.join
  dsimp only
  rw [hlist]
  simp

theorem matches_hard_single {type : Str} {content' : Str} {value' : Json} {i j : ℤ}
    (hcontent : content ≠ []) (hcontent' : content' ≠ [])
    (hparse : T.parse content = some (.object [(key, value)]))
    (hparse' : T.parse content' = some (.object [(key, value')])) (hi : value.IsInt i)
    (hj : value'.IsInt j) :
    (Digest.build T type content).matches_hard (Digest.build T type content') = true
      ↔ i = j ∨ i = j + 2 ^ 64 ∨ j = i + 2 ^ 64 := by
  unfold Digest.matches_hard
  rw [beq_iff_eq, hard_fingerprint_single hcontent hparse (scalarText_int hi),
    hard_fingerprint_single hcontent' hparse' (scalarText_int hj), List.append_cancel_left_eq,
    List.append_cancel_right_eq, List.append_cancel_left_eq, ← wrapped_eq_iff hi.bounds hj.bounds]
  exact ⟨decimalInt_injective, congrArg decimalInt⟩

end Fields

/-- An integer field keeps its value exactly if it is below 2^63, and two contents with one such
field each are told apart exactly if the integers are not 2^64 apart. The library takes no JSON out
of an empty text, and its objects have no two fields of one name. -/
theorem integer_hard_key_iff (T : JsonText) (hempty : T.parse [] = none)
    (hdistinct : ∀ s fields, T.parse s = some (.object fields) → (fields.map Prod.fst).Nodup) :
    (∀ content fields key value i, T.parse content = some (.object fields) →
        (key, value) ∈ fields → value.IsInt i →
          ((hard_keys T content)[key]? = some (decimalInt i) ↔ i < 2 ^ 63))
      ∧ ∀ type content content' key value value' i j,
        T.parse content = some (.object [(key, value)]) →
          T.parse content' = some (.object [(key, value')]) → value.IsInt i → value'.IsInt j →
            i ≠ j →
              ((Digest.build T type content).matches_hard (Digest.build T type content') = false
                ↔ i ≠ j + 2 ^ 64 ∧ j ≠ i + 2 ^ 64) := by
  have hne : ∀ {content j}, T.parse content = some j → content ≠ [] := fun {content j} h hnil => by
    rw [hnil, hempty] at h
    cases h
  refine ⟨fun content fields key value i hparse hfield hi => ?_,
    fun type content content' key value value' i j hparse hparse' hi hj hij => ?_⟩
  · rw [getElem?_hard_keys, scalarField_of_mem (hne hparse) hparse (hdistinct _ _ hparse) hfield,
      scalarText_int hi, Option.some.injEq, ← wrapped_eq_self_iff]
    exact ⟨decimalInt_injective, congrArg decimalInt⟩
  · rw [← Bool.not_eq_true,
      matches_hard_single (hne hparse) (hne hparse') hparse hparse' hi hj, or_iff_right hij, not_or]

/-- The largest unsigned integer and the integer that it wraps to. -/
def wideText : JsonText := .ofTable
  [("\x7b\"a\":18446744073709551615\x7d",
      .object [("a", .number_unsigned 18446744073709551615)]),
    ("\x7b\"a\":-1\x7d", .object [("a", .number_integer (-1))])]

theorem wideText_objects {s : Str} {fields : List (Str × Json)}
    (h : wideText.parse s = some (.object fields)) : (fields.map Prod.fst).Nodup := by
  obtain ⟨before, after, htable, -⟩ := List.lookup_eq_some_iff.1 h
  have hmem : (s, Json.object fields) ∈ before ++ (s, Json.object fields) :: after :=
    List.mem_append_right _ List.mem_cons_self
  rw [← htable] at hmem
  simp only [List.mem_cons, Prod.mk.injEq, Json.object.injEq, List.not_mem_nil, or_false] at hmem
  obtain ⟨-, rfl⟩ | ⟨-, rfl⟩ := hmem
  · exact List.nodup_singleton _
  · exact List.nodup_singleton _

theorem integer_hard_key_minus_one :
    (hard_keys wideText "\x7b\"a\":-1\x7d")[lit "a"]? = some (decimalInt (-1)) :=
  ((integer_hard_key_iff wideText (by decide) fun s fields => wideText_objects).1
    (lit "\x7b\"a\":-1\x7d") [("a", .number_integer (-1))] (lit "a") (.number_integer (-1)) (-1)
    (by decide +kernel) List.mem_cons_self (.signed (by decide) (by decide))).2 (by decide)

/-- An integer above the signed range is put down as a negative one. -/
theorem integer_hard_key_wraps :
    (hard_keys wideText "\x7b\"a\":18446744073709551615\x7d")[lit "a"]?
        ≠ some (decimalInt 18446744073709551615)
      ∧ (Digest.build wideText "result" "\x7b\"a\":18446744073709551615\x7d").matches_hard
        (Digest.build wideText "result" "\x7b\"a\":-1\x7d") = true := by
  decide +kernel

end Praxis
