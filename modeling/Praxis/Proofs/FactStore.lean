import Praxis.FactLog

/-!
# What a fact store keeps

The id of a fact is a digest of its type and content joined by a newline, and the store takes two
facts with one id for the same fact: appended facts are kept verbatim unless two of them are joined
to the same text (`verbatim_iff`).
-/

namespace Praxis

def hexDigit (c : UInt8) : ℕ := if c < 58 then c.toNat - 48 else c.toNat - 87

/-- The number that a hexadecimal text stands for. -/
def hexValue (s : Str) : ℕ := s.foldl (fun n c => n * 16 + hexDigit c) 0

theorem hexDigit_digitChar : ∀ d < 16, hexDigit (Nat.digitChar d).toNat.toUInt8 = d := by decide

theorem hexValue_toDigits (n : ℕ) :
    hexValue ((Nat.toDigits 16 n).map fun c => c.toNat.toUInt8) = n := by
  induction n using Nat.strong_induction_on with
  | _ n ih =>
    rw [Nat.toDigits_eq_if (by decide)]
    split_ifs with h
    · exact (Nat.zero_add _).trans (hexDigit_digitChar n h)
    · have ih := ih (n / 16) (Nat.div_lt_self (by omega) (by decide))
      have hd := hexDigit_digitChar (n % 16) (Nat.mod_lt n (by decide))
      unfold hexValue at ih ⊢
      rw [List.map_append, List.foldl_append, ih, List.map_singleton, List.foldl_cons,
        List.foldl_nil, hd]
      omega

theorem hexValue_zeros (s : Str) :
    ∀ k, hexValue (List.replicate k (48 : UInt8) ++ s) = hexValue s
  | 0 => rfl
  | k + 1 => hexValue_zeros s k

theorem hexValue_hex16 (h : UInt64) : hexValue (hex16 h) = h.toNat :=
  (hexValue_zeros _ _).trans (hexValue_toDigits _)

theorem hex16_inj {h h' : UInt64} (heq : hex16 h = hex16 h') : h = h' := by
  refine UInt64.toNat_inj.1 ?_
  rw [← hexValue_hex16, heq, hexValue_hex16]

theorem length_hex16 (h : UInt64) : (hex16 h).length = 16 := by
  have hle : (Nat.toDigits 16 h.toNat).length ≤ 16 :=
    (Nat.length_toDigits_le_iff (by decide) (by decide)).2 h.toNat_lt
  simp only [hex16, padded, List.length_append, List.length_replicate, List.length_map]
  omega

namespace FactStore

/-- What is hashed for the id of a fact, given as type and content. -/
def combined (fact : Str × Str) : Str := fact.1 ++ "\n" ++ fact.2

abbrev digest (fact : Str × Str) : Str := digest_hex fact.1 fact.2

/-- The fact as the store keeps it. -/
def factOf (fact : Str × Str) : Fact where
  id := digest fact
  type := fact.1
  content := fact.2

theorem digest_congr {x y : Str × Str} (h : combined x = combined y) : digest x = digest y := by
  unfold combined at h
  simp only [digest, digest_hex, h]

theorem fnv1a_eq_of_digest {x y : Str × Str} (h : digest x = digest y) :
    fnv1a (combined x) = fnv1a (combined y) := by
  have hlen : (hex16 (fnv1a (combined x))).length = (hex16 (fnv1a (combined y))).length := by
    rw [length_hex16, length_hex16]
  exact hex16_inj (List.append_inj h hlen).1

/-- No two of the facts are hashed alike unless they are joined to the same text. -/
def NoCollision (facts : List (Str × Str)) : Prop :=
  ∀ x ∈ facts, ∀ y ∈ facts, fnv1a (combined x) = fnv1a (combined y) → combined x = combined y

theorem factOf_inj {x y : Str × Str} (h : factOf x = factOf y) : x = y :=
  Prod.ext (congrArg Fact.type h) (congrArg Fact.content h)

theorem get_assign (store : FactStore) (fact : Str × Str) (id : Str) :
    (store.assign fact.1 fact.2).get id = if id = digest fact then some (factOf fact)
      else store.get id := by
  unfold get assign
  split_ifs with h
  · rw [h]
    exact AList.lookup_insert _
  · exact AList.lookup_insert_ne h

/-- Every entry is stored under the digest of its own type and content. -/
def Keyed (store : FactStore) : Prop :=
  ∀ id fact, store.get id = some fact → id = digest (fact.type, fact.content)
    ∧ fact = factOf (fact.type, fact.content)

theorem keyed_empty : Keyed {} := fun id fact h => by cases h

theorem Keyed.assign {store : FactStore} (h : store.Keyed) (fact : Str × Str) :
    (store.assign fact.1 fact.2).Keyed := fun id f hf => by
  rw [get_assign] at hf
  split_ifs at hf with hid
  · cases hf
    exact ⟨hid, rfl⟩
  · exact h id f hf

/-- The store that facts assigned one after another leave. -/
def assignAll (store : FactStore) (facts : List (Str × Str)) : FactStore :=
  facts.foldl (fun store fact => store.assign fact.1 fact.2) store

theorem Keyed.assignAll {store : FactStore} (h : store.Keyed) (facts : List (Str × Str)) :
    (store.assignAll facts).Keyed := by
  induction facts generalizing store with
  | nil => exact h
  | cons fact facts ih => exact ih (h.assign fact)

def readLines (lines : List Str) : List (Str × Str) := lines.filterMap readLine

theorem load_eq (text : Str) : load text = assignAll {} (readLines (Text.lines 10 text)) := by
  unfold load assignAll readLines
  rw [List.foldl_filterMap]
  refine congrArg (fun f => List.foldl f _ _) (funext fun store => funext fun line => ?_)
  unfold loadLine
  rcases readLine line with _ | ⟨type, content⟩ <;> rfl

theorem keyed_load (text : Str) : (load text).Keyed := by
  rw [load_eq]
  exact keyed_empty.assignAll _

end FactStore

namespace FactFile

open FactStore

variable {f : FactFile}

@[simp] theorem append_fst (f : FactFile) (type content : Str) :
    (f.append type content).1 = digest_hex type content := by
  unfold append
  dsimp only
  split <;> rfl

/-- A fact whose id is there already leaves the store and the file as they are. -/
theorem append_known {fact : Str × Str} (h : (f.get (digest fact)).isSome) :
    (f.append fact.1 fact.2).2 = f := by
  obtain ⟨stored, h⟩ := Option.isSome_iff_exists.1 h
  unfold append
  dsimp only
  rw [show f.store.entries.lookup (digest_hex fact.1 fact.2) = some stored from h]

theorem append_new {fact : Str × Str} (h : f.get (digest fact) = none) :
    (f.append fact.1 fact.2).2 = { f with
      store := f.store.assign fact.1 fact.2
      file :=
        if f.is_open then f.file.map (· ++ (line fact.1 fact.2 ++ "\n")) else f.file } := by
  unfold append
  dsimp only
  rw [show f.store.entries.lookup (digest_hex fact.1 fact.2) = none from h]

theorem append_get (f : FactFile) (fact : Str × Str) (id : Str) :
    (f.append fact.1 fact.2).2.get id =
      if id = digest fact ∧ f.get id = none then some (factOf fact) else f.get id := by
  rcases h : f.get (digest fact) with _ | stored
  · rw [append_new h]
    refine (get_assign f.store fact id).trans ?_
    by_cases hid : id = digest fact
    · rw [if_pos hid, if_pos ⟨hid, hid ▸ h⟩]
    · rw [if_neg hid, if_neg fun h => hid h.1]
      rfl
  · rw [append_known (by rw [h]; rfl), if_neg]
    rintro ⟨rfl, hid⟩
    rw [hid] at h
    cases h

theorem get_appendAll {facts : List (Str × Str)} {id : Str} {fact : Fact} :
    ∀ {f : FactFile}, f.get id = some fact → (f.appendAll facts).get id = some fact := by
  induction facts with
  | nil => exact fun h => h
  | cons x facts ih =>
    intro f h
    refine ih (f := (f.append x.1 x.2).2) ?_
    rw [append_get, if_neg fun hid => by rw [h] at hid; cases hid.2]
    exact h

theorem appendAll_append (f : FactFile) (facts later : List (Str × Str)) :
    f.appendAll (facts ++ later) = (f.appendAll facts).appendAll later := List.foldl_append

/-- A store that was made on some path, whatever was there, and appended to. -/
def Reachable (f : FactFile) : Prop :=
  ∃ path file opens facts, f = (new path file opens).appendAll facts

theorem keyed_append (h : f.store.Keyed) (fact : Str × Str) :
    (f.append fact.1 fact.2).2.store.Keyed := by
  rcases hget : f.get (digest fact) with _ | stored
  · rw [append_new hget]
    exact h.assign fact
  · rw [append_known (by rw [hget]; rfl)]
    exact h

theorem keyed_appendAll (facts : List (Str × Str)) (h : f.store.Keyed) :
    (f.appendAll facts).store.Keyed := by
  induction facts generalizing f with
  | nil => exact h
  | cons fact facts ih => exact ih (keyed_append h fact)

theorem keyed_new (path : Str) (file : Option Str) (opens : Bool) :
    (new path file opens).store.Keyed := by
  unfold new
  split
  · exact keyed_empty
  · exact keyed_load _

theorem Reachable.keyed (h : f.Reachable) : f.store.Keyed := by
  obtain ⟨path, file, opens, facts, rfl⟩ := h
  exact keyed_appendAll facts (keyed_new path file opens)

/-- The facts of a store, as type and content. -/
def facts (f : FactFile) : List (Str × Str) :=
  f.store.entries.entries.map fun entry => (entry.2.type, entry.2.content)

theorem mem_facts (h : f.store.Keyed) {fact : Str × Str} :
    fact ∈ f.facts ↔ f.get (digest fact) = some (factOf fact) := by
  unfold facts
  rw [List.mem_map]
  constructor
  · rintro ⟨⟨id, stored⟩, hmem, rfl⟩
    have hget : f.get id = some stored := AList.mem_lookup_iff.2 hmem
    obtain ⟨rfl, hstored⟩ := h id stored hget
    rw [hget]
    exact congrArg some hstored
  · intro hget
    exact ⟨⟨digest fact, factOf fact⟩, AList.mem_lookup_iff.1 hget, rfl⟩

/-- Each append returns an id that finds its fact, then and after later appends, and facts that
differ get ids that differ. -/
structure Verbatim (f : FactFile) (facts : List (Str × Str)) : Prop where
  found : ∀ before x after, facts = before ++ x :: after → ∀ later, later <+: after →
    let appended := (f.appendAll before).append x.1 x.2
    (appended.2.appendAll later).get appended.1
      = some { id := appended.1, type := x.1, content := x.2 }
  apart : ∀ before x between y after, facts = before ++ x :: (between ++ y :: after) → x ≠ y →
    ((f.appendAll before).append x.1 x.2).1
      ≠ ((f.appendAll (before ++ x :: between)).append y.1 y.2).1

theorem Verbatim.get {facts : List (Str × Str)} (h : f.Verbatim facts) {x : Str × Str}
    (hx : x ∈ facts) : (f.appendAll facts).get (digest x) = some (factOf x) := by
  obtain ⟨before, after, rfl⟩ := List.append_of_mem hx
  have hfound := h.found before x after rfl after (List.prefix_refl after)
  dsimp only at hfound
  rw [append_fst] at hfound
  rw [appendAll_append]
  exact hfound

/-- What a store holds after appends is what it held or one of them. -/
theorem mem_facts_appendAll {facts : List (Str × Str)} {x : Str × Str} (h : f.store.Keyed)
    (hx : x ∈ (f.appendAll facts).facts) : x ∈ f.facts ∨ x ∈ facts := by
  induction facts generalizing f with
  | nil => exact .inl hx
  | cons y facts ih =>
    rcases ih (keyed_append h y) hx with hx | hx
    · rw [mem_facts (keyed_append h y), append_get] at hx
      split_ifs at hx
      · rw [← factOf_inj (Option.some.inj hx)]
        exact .inr List.mem_cons_self
      · exact .inl ((mem_facts h).2 hx)
    · exact .inr (List.mem_cons_of_mem y hx)

/-- Under the assumption on the hash, the appended facts are kept verbatim exactly if none of them
is joined to the same text as another fact there. -/
theorem verbatim_iff {facts : List (Str × Str)} (hf : f.Reachable)
    (hhash : NoCollision (f.facts ++ facts)) :
    f.Verbatim facts ↔
      ∀ x ∈ facts, ∀ y ∈ f.facts ++ facts, combined x = combined y → x = y := by
  have hkeyed := hf.keyed
  constructor
  · intro h x hx y hy hxy
    have hgetx := h.get hx
    have hgety : (f.appendAll facts).get (digest y) = some (factOf y) := by
      rcases List.mem_append.1 hy with hy | hy
      · exact get_appendAll ((mem_facts hkeyed).1 hy)
      · exact h.get hy
    rw [digest_congr hxy, hgety] at hgetx
    exact (factOf_inj (Option.some.inj hgetx)).symm
  · intro h
    have hid : ∀ x ∈ facts, ∀ y ∈ f.facts ++ facts, digest x = digest y → x = y :=
      fun x hx y hy hxy =>
        h x hx y hy (hhash x (List.mem_append_right _ hx) y hy (fnv1a_eq_of_digest hxy))
    constructor
    · intro before x after hfacts later _
      have hx : x ∈ facts := by rw [hfacts]; simp
      have hget : ((f.appendAll before).append x.1 x.2).2.get (digest x) = some (factOf x) := by
        rw [append_get]
        split_ifs with hnew
        · rfl
        · obtain ⟨stored, hstored⟩ := Option.ne_none_iff_exists'.1 fun hnone => hnew ⟨rfl, hnone⟩
          obtain ⟨hdigest, hfact⟩ := keyed_appendAll before hkeyed _ stored hstored
          have hmem := (mem_facts (keyed_appendAll before hkeyed)).2
            (hdigest ▸ hfact ▸ hstored)
          have hy : (stored.type, stored.content) ∈ f.facts ++ facts := by
            rcases mem_facts_appendAll hkeyed hmem with hmem | hmem
            · exact List.mem_append_left _ hmem
            · rw [hfacts]
              simp [hmem]
          rw [hstored, hfact, ← hid x hx _ hy hdigest]
      dsimp only
      rw [append_fst]
      exact get_appendAll hget
    · intro before x between y after hfacts hne
      rw [append_fst, append_fst]
      exact fun hxy => hne (hid x (by rw [hfacts]; simp) y (by rw [hfacts]; simp) hxy)

theorem verbatim_notes : (new [] none false).Verbatim [(lit "a", lit "b"), (lit "a", lit "c")] := by
  refine (verbatim_iff ⟨[], none, false, [], rfl⟩ ?_).2 (by decide)
  unfold NoCollision
  decide

/-- The newline that joins a type to its content may also stand in either of them. -/
def joinedAlike : List (Str × Str) := [(lit "a\nb", lit "c"), (lit "a", lit "b\nc")]

theorem not_verbatim_joinedAlike :
    (new [] none false).Reachable ∧ NoCollision ((new [] none false).facts ++ joinedAlike)
      ∧ ¬ (new [] none false).Verbatim joinedAlike := by
  refine ⟨⟨[], none, false, [], rfl⟩, ?_, fun h => ?_⟩
  · unfold NoCollision
    decide
  · have hfound := h.get (List.mem_of_getElem? (i := 1) rfl)
    exact absurd hfound (by decide)

end FactFile

end Praxis
