import Praxis.Context
import Praxis.Types
import Praxis.Lib.Utf8

/-!
# Texts that are Unicode

What the engine itself writes is ASCII, and what it puts together of valid texts is valid, unless it
cuts them. The working set cuts a fact that is too long, so it is valid if the cut does not go
through a character (`Legible.render`).
-/

namespace Praxis

open Utf8 (Valid)

theorem valid_lit {s : String} (h : (lit s).all (· < 128) = true) : Valid (lit s) :=
  Utf8.valid_ascii (by simpa using h)

theorem digitChar_lt (n : ℕ) : (Nat.digitChar n).toNat < 128 := by
  rcases lt_or_ge n 16 with h | h
  · have hsmall : ∀ m : Fin 16, (Nat.digitChar m).toNat < 128 := by decide
    exact hsmall ⟨n, h⟩
  · unfold Nat.digitChar
    repeat rw [if_neg (by omega)]
    decide

theorem mem_toDigitsCore {b : ℕ} :
    ∀ {fuel n : ℕ} {ds : List Char} {c : Char}, c ∈ Nat.toDigitsCore b fuel n ds →
      c ∈ ds ∨ ∃ d, c = Nat.digitChar d
  | 0, _, _, _, h => .inl h
  | fuel + 1, n, ds, c, h => by
    unfold Nat.toDigitsCore at h
    dsimp only at h
    split_ifs at h
    · rcases List.mem_cons.1 h with rfl | h
      · exact .inr ⟨_, rfl⟩
      · exact .inl h
    · rcases mem_toDigitsCore h with h | h
      · rcases List.mem_cons.1 h with rfl | h
        · exact .inr ⟨_, rfl⟩
        · exact .inl h
      · exact .inr h

/-- Digits are ASCII, in any base. -/
theorem valid_digits (b n : ℕ) :
    Valid ((Nat.toDigits b n).map fun c => c.toNat.toUInt8) := by
  refine Utf8.valid_ascii fun x hx => ?_
  obtain ⟨c, hc, rfl⟩ := List.mem_map.1 hx
  rcases mem_toDigitsCore hc with hc | ⟨d, rfl⟩
  · cases hc
  · have hlt := digitChar_lt d
    rw [UInt8.lt_iff_toNat_lt]
    show (Nat.digitChar d).toNat % 256 < 128
    omega

theorem valid_decimal (n : ℕ) : Valid (decimal n) := valid_digits 10 n

theorem valid_padded (b width n : ℕ) : Valid (padded b width n) :=
  Valid.append (Utf8.valid_ascii fun x hx => by rw [List.eq_of_mem_replicate hx]; decide)
    (valid_digits b n)

theorem valid_hex16 (h : UInt64) : Valid (hex16 h) := valid_padded 16 16 h.toNat

theorem valid_decimalInt : ∀ i : ℤ, Valid (decimalInt i)
  | .ofNat n => valid_decimal n
  | .negSucc n => Valid.append (valid_lit (by decide)) (valid_decimal (n + 1))

theorem valid_decimalFloat (q : ℚ) : Valid (decimalFloat q) := by
  unfold decimalFloat
  refine Valid.append (Valid.append (Valid.append ?_ (valid_decimal _)) (valid_lit (by decide)))
    (valid_padded _ _ _)
  split_ifs
  · exact valid_lit (by decide)
  · exact Utf8.valid_nil

namespace Json

mutual

/-- The strings inside a value, with the names of its fields. -/
def strings : Json → List Str
  | string s => [s]
  | array elems => stringsElems elems
  | object fields => stringsFields fields
  | _ => []

def stringsElems : List Json → List Str
  | [] => []
  | j :: elems => strings j ++ stringsElems elems

def stringsFields : List (Str × Json) → List Str
  | [] => []
  | (key, j) :: fields => key :: strings j ++ stringsFields fields

end

/-- Every string inside is valid. -/
def Unicode (j : Json) : Prop := ∀ s ∈ j.strings, Valid s

instance {j : Json} : Decidable j.Unicode := inferInstanceAs (Decidable (∀ s ∈ j.strings, Valid s))

/-- Every name and every value is valid. -/
def UnicodeFields (fields : List (Str × Json)) : Prop :=
  ∀ f ∈ fields, Valid f.1 ∧ f.2.Unicode

/-- Numbers, truth values and null. -/
theorem unicode_plain {j : Json} (h : j.strings = []) : j.Unicode := by simp [Unicode, h]

theorem unicode_string {s : Str} : (string s).Unicode ↔ Valid s := by simp [Unicode, strings]

theorem unicode_object :
    ∀ {fields : List (Str × Json)}, (object fields).Unicode ↔ UnicodeFields fields
  | [] => by simp [Unicode, UnicodeFields, strings, stringsFields]
  | (key, j) :: fields => by
    have hrest : (∀ s ∈ stringsFields fields, Valid s) ↔ UnicodeFields fields := unicode_object
    simp only [Unicode, UnicodeFields, strings, stringsFields, List.forall_mem_cons,
      List.cons_append, List.forall_mem_append] at hrest ⊢
    rw [hrest, and_assoc]

theorem unicode_array : ∀ {elems : List Json}, (array elems).Unicode ↔ ∀ j ∈ elems, j.Unicode
  | [] => by simp [Unicode, strings, stringsElems]
  | j :: elems => by
    have hrest : (∀ s ∈ stringsElems elems, Valid s) ↔ ∀ j ∈ elems, j.Unicode := unicode_array
    simp only [Unicode, strings, stringsElems, List.forall_mem_cons, List.forall_mem_append]
      at hrest ⊢
    rw [hrest]

theorem UnicodeFields.setField {key : Str} {value : Json} :
    ∀ {fields : List (Str × Json)}, UnicodeFields fields → Valid key → value.Unicode →
      UnicodeFields (Json.setField key value fields)
  | [], _, hkey, hvalue => List.forall_mem_singleton.2 ⟨hkey, hvalue⟩
  | (k, v) :: fields, h, hkey, hvalue => by
    obtain ⟨hfirst, hrest⟩ := List.forall_mem_cons.1 h
    unfold Json.setField
    split
    · exact List.forall_mem_cons.2 ⟨⟨hkey, hvalue⟩, h⟩
    · exact List.forall_mem_cons.2 ⟨⟨hfirst.1, hvalue⟩, hrest⟩
    · exact List.forall_mem_cons.2 ⟨hfirst, UnicodeFields.setField hrest hkey hvalue⟩

theorem unicode_ofFields {fields : List (Str × Json)} (h : UnicodeFields fields) :
    (ofFields fields).Unicode := by
  refine unicode_object.2 (List.foldlRecOn (motive := UnicodeFields) fields _ ?_ ?_)
  · simp [UnicodeFields]
  · exact fun acc hacc f hf => hacc.setField (h f hf).1 (h f hf).2

end Json

/-- The library reads only texts that are valid, makes valid strings of their escapes and writes
only valid texts. -/
structure JsonText.Unicode (T : JsonText) : Prop where
  parse : ∀ s j, T.parse s = some j → j.Unicode
  dump : ∀ j s, T.dump j = .ok s → Valid s

theorem JsonText.unicode_ofTable {table : List (Str × Json)}
    (h : ∀ entry ∈ table, Valid entry.1 ∧ entry.2.Unicode) : (JsonText.ofTable table).Unicode where
  parse := fun s j hparse => by
    obtain ⟨before, after, rfl, -⟩ := List.lookup_eq_some_iff.1 hparse
    exact (h (s, j) (by simp)).2
  dump := fun j s hdump => by
    unfold ofTable at hdump
    dsimp only at hdump
    split at hdump
    · next entry hentry =>
      cases hdump
      exact (h entry (List.mem_of_find?_eq_some hentry)).1
    · cases hdump

/-- Every string of the message is valid. -/
structure Message.Unicode (m : Message) : Prop where
  role : Valid m.role
  content : Valid m.content
  tool_calls : ∀ j, m.tool_calls = some j → j.Unicode

theorem valid_scalarText {j : Json} (hj : j.Unicode) {text : Str} (h : scalarText j = some text) :
    Valid text := by
  cases j with
  | string s =>
    obtain rfl := Option.some.inj h
    exact Json.unicode_string.1 hj
  | number_integer i =>
    obtain rfl := Option.some.inj h
    exact valid_decimalInt _
  | number_unsigned n =>
    obtain rfl := Option.some.inj h
    exact valid_decimalInt _
  | number_float q =>
    obtain rfl := Option.some.inj h
    exact valid_decimalFloat q
  | boolean b =>
    obtain rfl := Option.some.inj h
    cases b <;> exact valid_lit (by decide)
  | null => cases h
  | array => cases h
  | object => cases h

/-- Every name and every text of a digest is valid. -/
def HardKeys.Unicode (keys : HardKeys) : Prop := ∀ e ∈ keys.toList, Valid e.1 ∧ Valid e.2

namespace HardKeys

theorem mem_toList_insert {keys : HardKeys} {k v : Str} {e : Str × Str}
    (h : e ∈ (Std.TreeMap.insert keys k v).toList) : e = (k, v) ∨ e ∈ keys.toList := by
  rw [← Prod.mk.eta (p := e)] at h ⊢
  rw [Std.TreeMap.mem_toList_iff_getElem?_eq_some] at h
  rw [Std.TreeMap.mem_toList_iff_getElem?_eq_some]
  rw [Std.TreeMap.getElem?_insert] at h
  split_ifs at h with hk
  · obtain rfl := Option.some.inj h
    exact .inl (by rw [Std.LawfulEqCmp.eq_of_compare hk])
  · exact .inr h

theorem Unicode.insert {keys : HardKeys} (h : keys.Unicode) {k v : Str} (hk : Valid k)
    (hv : Valid v) : HardKeys.Unicode (Std.TreeMap.insert keys k v) := fun e he => by
  rcases mem_toList_insert he with rfl | he
  · exact ⟨hk, hv⟩
  · exact h e he

theorem unicode_empty : HardKeys.Unicode ∅ := fun e he => by
  rw [← Prod.mk.eta (p := e), Std.TreeMap.mem_toList_iff_getElem?_eq_some] at he
  simp at he

theorem Unicode.update {digest keys : HardKeys} (hdigest : digest.Unicode) (hkeys : keys.Unicode) :
    (digest.update keys).Unicode := by
  exact List.foldlRecOn (motive := HardKeys.Unicode) keys.toList _ hdigest
    fun digest hdigest e he => hdigest.insert (hkeys e he).1 (hkeys e he).2

end HardKeys

theorem unicode_hard_keys {T : JsonText} (hT : T.Unicode) (content : Str) :
    (hard_keys T content).Unicode := by
  unfold hard_keys
  split_ifs
  · exact HardKeys.unicode_empty
  · split
    · next fields hparse =>
      have hfields := Json.unicode_object.1 (hT.parse _ _ hparse)
      refine List.foldlRecOn (motive := HardKeys.Unicode) fields _ HardKeys.unicode_empty
        fun keys hkeys f hf => ?_
      split
      · next text htext =>
        exact hkeys.insert (hfields f hf).1 (valid_scalarText (hfields f hf).2 htext)
      · exact hkeys
    · exact HardKeys.unicode_empty

/-- Where a fact is cut, no character is. -/
def CutFits (limit : ℕ) (content : Str) : Prop :=
  limit < estimate_tokens content → Valid (content.take (limit / 2))

/-- What the context holds is valid, and will be where it is cut. -/
structure ContextManager.Unicode (context : ContextManager) : Prop where
  digest : context.digest.Unicode
  facts : ∀ id fact, context.store.get id = some fact →
    Valid fact.content ∧ CutFits context.max_working_tokens fact.content

namespace ContextManager

variable {context : ContextManager}

theorem unicode_new (token_budget : ℕ) : (new token_budget).Unicode where
  digest := HardKeys.unicode_empty
  facts := fun id fact h => by cases h

theorem valid_digest_hex (type content : Str) : Valid (FactStore.digest_hex type content) :=
  Valid.append (valid_hex16 _) (valid_hex16 _)

/-- A valid text that fits the cut can be recorded. -/
theorem Unicode.record {T : JsonText} (hT : T.Unicode) (h : context.Unicode) (type : Str)
    {body : Str} (hbody : Valid body) (hcut : CutFits context.max_working_tokens body) :
    let appended := context.store.append type body
    Valid appended.1
      ∧ (record_tool_result T { context with store := appended.2 } appended.1).Unicode
      ∧ (record_tool_result T { context with store := appended.2 } appended.1).max_working_tokens
        = context.max_working_tokens := by
  intro appended
  have hfacts : ∀ id fact, appended.2.get id = some fact →
      Valid fact.content ∧ CutFits context.max_working_tokens fact.content := by
    intro id fact hfact
    simp only [appended, FactStore.append] at hfact
    split at hfact
    · exact h.facts id fact hfact
    · unfold FactStore.get at hfact
      by_cases hid : id = FactStore.digest_hex type body
      · subst hid
        rw [AList.lookup_insert] at hfact
        obtain rfl := Option.some.inj hfact
        exact ⟨hbody, hcut⟩
      · rw [AList.lookup_insert_ne hid] at hfact
        exact h.facts id fact hfact
  have hid : appended.1 = FactStore.digest_hex type body := by
    simp only [appended, FactStore.append]
    split <;> rfl
  refine ⟨hid ▸ valid_digest_hex type body, ⟨?_, hfacts⟩, rfl⟩
  simp only [record_tool_result]
  split
  · next fact _ => exact h.digest.update (unicode_hard_keys hT fact.content)
  · exact h.digest

theorem Unicode.renderFacts (h : context.Unicode) {ctx : TurnContext} (hgoal : Valid ctx.goal) :
    Valid (context.renderFacts ctx) := by
  unfold ContextManager.renderFacts
  refine List.foldlRecOn (motive := Valid) context.digest.toList _ ?_ fun render hrender e he => ?_
  · exact (Valid.append (valid_lit (by decide)) hgoal).append (valid_lit (by decide))
  · obtain ⟨hk, hv⟩ := h.digest e he
    exact ((((hrender.append (valid_lit (by decide))).append hk).append
      (valid_lit (by decide))).append hv).append (valid_lit (by decide))

theorem Unicode.renderFact {fact : Fact} {render : Str} (hrender : Valid render)
    (hid : Valid fact.id) (hcontent : Valid fact.content)
    (hcut : CutFits context.max_working_tokens fact.content) :
    Valid (context.renderFact render fact) := by
  have hheaded : Valid (render ++ "\n## " ++ fact.id ++ "\n") :=
    ((hrender.append (valid_lit (by decide))).append hid).append (valid_lit (by decide))
  unfold ContextManager.renderFact
  dsimp only
  split_ifs with hlimit
  · exact (hheaded.append hcontent).append (valid_lit (by decide))
  · exact (hheaded.append (hcut (not_le.1 hlimit))).append (valid_lit (by decide))

theorem Unicode.render (h : context.Unicode) {ctx : TurnContext} (hgoal : Valid ctx.goal)
    (hids : ∀ id ∈ ctx.recent_tool_results, Valid id) :
    Valid (context.render_working_set ctx).render := by
  have hfacts : ∀ fact ∈ ctx.recent_tool_results.filterMap (fun id =>
      (context.store.get id).map fun fact => { fact with id := id }),
      Valid fact.id ∧ Valid fact.content ∧ CutFits context.max_working_tokens fact.content := by
    intro fact hfact
    obtain ⟨id, hid, hfact⟩ := List.mem_filterMap.1 hfact
    obtain ⟨stored, hstored, rfl⟩ := Option.map_eq_some_iff.1 hfact
    exact ⟨hids id hid, h.facts id stored hstored⟩
  unfold render_working_set
  dsimp only
  split_ifs
  · exact h.renderFacts hgoal
  · refine List.foldlRecOn (motive := Valid) _ _ (h.renderFacts hgoal)
      fun render hrender fact hfact => ?_
    obtain ⟨hid, hcontent, hcut⟩ := hfacts fact hfact
    exact Unicode.renderFact hrender hid hcontent hcut

end ContextManager

end Praxis
