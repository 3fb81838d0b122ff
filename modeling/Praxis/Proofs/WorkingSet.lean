import Praxis.Proofs.Rebuild
import Praxis.Proofs.Tokens

/-!
# The working set and its budget

A render over the limit falls back to the goal and the digest, which are rendered whatever they
take: the working set keeps to the budget if and only if these two do (`withinBudget_iff`). The
list of fact blocks is not emptied in the fallback (`described_iff`).
-/

namespace Praxis

theorem le_countTokens (in_word : Bool) (n : ℕ) (cps : List UInt32) :
    n ≤ countTokens in_word n cps := by
  induction cps generalizing in_word n with
  | nil => exact le_rfl
  | cons cp cps ih =>
    rw [countTokens]
    split_ifs
    · exact ih _ _
    · exact (Nat.le_add_right n 2).trans (ih _ _)
    · exact (Nat.le_add_right n 1).trans (ih _ _)
    · exact ih _ _
    · exact (Nat.le_add_right n 1).trans (ih _ _)

theorem countTokens_append_le (in_word : Bool) (n : ℕ) (cps later : List UInt32) :
    countTokens in_word n cps ≤ countTokens in_word n (cps ++ later) := by
  induction cps generalizing in_word n with
  | nil => exact le_countTokens in_word n later
  | cons cp cps ih =>
    rw [List.cons_append, countTokens, countTokens]
    split_ifs <;> exact ih _ _

/-- A wide code point counts for as much as any other in its place. -/
theorem countTokens_wide_le {wide : UInt32} (h : 0x80 ≤ wide) (in_word : Bool) (n : ℕ)
    (cps : List UInt32) (cp : UInt32) (later : List UInt32) :
    countTokens in_word n (cps ++ [cp]) ≤ countTokens in_word n (cps ++ wide :: later) := by
  induction cps generalizing in_word n with
  | nil =>
    have hne : ¬ (wide = 32 ∨ wide = 10 ∨ wide = 9) := by
      rintro (rfl | rfl | rfl) <;> exact absurd h (by decide)
    have hcount := le_countTokens false ((if in_word then n + 1 else n) + 1) later
    simp only [List.nil_append, countTokens, if_neg hne, if_pos h]
    split_ifs at hcount ⊢ <;> omega
  | cons c cps ih =>
    rw [List.cons_append, List.cons_append, countTokens, countTokens]
    split_ifs <;> exact ih _ _

/-- A code point of which `extra` bytes are still to come fits in what these leave free. -/
def CodeFits (cp : UInt32) (extra : ℕ) : Prop := extra ≤ 3 ∧ cp.toNat < 2 ^ (21 - 6 * extra)

theorem codeFits_zero : CodeFits 0 0 := ⟨by decide, by decide⟩

theorem codeFits_leadByte : ∀ c : UInt8, CodeFits (leadByte c).1 (leadByte c).2 := by
  unfold CodeFits
  decide +kernel

theorem toNat_continue {cp : UInt32} (h : cp.toNat < 2 ^ 15) (c : UInt8) :
    ((cp <<< 6) ||| (c &&& 0x3F).toUInt32).toNat = cp.toNat * 64 + c.toNat % 64 := by
  have hlow : c.toNat &&& 63 = c.toNat % 2 ^ 6 := Nat.and_two_pow_sub_one_eq_mod _ 6
  have hhigh : cp.toNat <<< 6 % 4294967296 = cp.toNat <<< 6 := by
    rw [Nat.shiftLeft_eq]
    omega
  have hbits : cp.toNat <<< 6 ||| c.toNat % 2 ^ 6 = cp.toNat * 64 + c.toNat % 64 := by
    rw [← Nat.shiftLeft_add_eq_or_of_lt (Nat.mod_lt _ (by decide)), Nat.shiftLeft_eq]
  simpa [hlow, hhigh] using hbits

theorem CodeFits.lt {cp : UInt32} {extra : ℕ} (h : CodeFits cp (extra + 1)) : cp.toNat < 2 ^ 15 :=
  h.2.trans_le (Nat.pow_le_pow_right (by decide) (by omega))

theorem CodeFits.continue {cp : UInt32} {extra : ℕ} (h : CodeFits cp (extra + 1)) (c : UInt8) :
    CodeFits ((cp <<< 6) ||| (c &&& 0x3F).toUInt32) extra := by
  obtain ⟨hextra, hcp⟩ := h
  refine ⟨by omega, ?_⟩
  rw [toNat_continue (CodeFits.lt ⟨hextra, hcp⟩),
    show 21 - 6 * extra = 21 - 6 * (extra + 1) + 6 by omega, Nat.pow_add]
  omega

/-- What a text is decoded to before another one: the code points that it ends, and the state it
leaves. -/
theorem decodeFrom_append (s : Str) {cp : UInt32} {extra : ℕ} (h : CodeFits cp extra) :
    ∃ out cp' extra', CodeFits cp' extra'
      ∧ ∀ t, decodeFrom cp extra (s ++ t) = out ++ decodeFrom cp' extra' t := by
  induction s generalizing cp extra with
  | nil => exact ⟨[], cp, extra, h, fun t => rfl⟩
  | cons c s ih =>
    cases extra with
    | zero =>
      have hlead := codeFits_leadByte c
      rcases hc : leadByte c with ⟨first, _ | more⟩ <;> rw [hc] at hlead
      · obtain ⟨out, cp', extra', hfits, heq⟩ := ih codeFits_zero
        exact ⟨first :: out, cp', extra', hfits, fun t => by
          rw [List.cons_append, decodeFrom, hc, List.cons_append, ← heq]⟩
      · obtain ⟨out, cp', extra', hfits, heq⟩ := ih hlead
        exact ⟨out, cp', extra', hfits, fun t => by
          rw [List.cons_append, decodeFrom, hc, ← heq]⟩
    | succ extra =>
      by_cases hlast : extra = 0
      · obtain ⟨out, cp', extra', hfits, heq⟩ := ih codeFits_zero
        exact ⟨_ :: out, cp', extra', hfits, fun t => by
          rw [List.cons_append, decodeFrom, if_pos hlast, List.cons_append, ← heq]⟩
      · obtain ⟨out, cp', extra', hfits, heq⟩ := ih (h.continue c)
        exact ⟨out, cp', extra', hfits, fun t => by
          rw [List.cons_append, decodeFrom, if_neg hlast, ← heq]⟩

/-- A code point that has begun with more than one bit is wide when it is continued. -/
theorem CodeFits.wide {cp : UInt32} {extra : ℕ} (h : CodeFits cp (extra + 1)) (hcp : 2 ≤ cp.toNat)
    (c : UInt8) : (0x80 : UInt32) ≤ (cp <<< 6) ||| (c &&& 0x3F).toUInt32 := by
  rw [UInt32.le_iff_toNat_le, toNat_continue h.lt c]
  show 128 ≤ _
  omega

theorem decodeFrom_wide (s : Str) {cp : UInt32} {extra : ℕ} (h : CodeFits cp (extra + 1))
    (hcp : 2 ≤ cp.toNat) (c : UInt8) :
    ∃ wide later, decodeFrom cp (extra + 1) (c :: s) = wide :: later ∧ 0x80 ≤ wide := by
  induction s generalizing cp extra c with
  | nil =>
    refine ⟨_, [], ?_, h.wide hcp c⟩
    rw [decodeFrom]
    cases extra <;> rfl
  | cons d s ih =>
    cases extra with
    | zero => exact ⟨_, _, rfl, h.wide hcp c⟩
    | succ extra =>
      have hnat := toNat_continue h.lt c
      obtain ⟨wide, later, heq, hle⟩ := ih (h.continue c) (by omega) d
      refine ⟨wide, later, ?_, hle⟩
      rw [decodeFrom, ← heq]
      rfl

/-- What follows a newline does not make the estimate smaller, not even where the newline was read
as a part of a character. -/
theorem estimate_tokens_le (s rest : Str) :
    estimate_tokens (s ++ "\n") ≤ estimate_tokens (s ++ "\n" ++ rest) := by
  obtain ⟨out, cp, extra, hfits, heq⟩ := decodeFrom_append s codeFits_zero
  unfold estimate_tokens decode_codepoints
  rw [List.append_assoc, heq, heq]
  rcases rest with _ | ⟨c, rest⟩
  · rfl
  cases extra with
  | zero =>
    refine (countTokens_append_le false 0 (out ++ [10]) (decodeFrom 0 0 (c :: rest))).trans_eq ?_
    rw [List.append_assoc]
    rfl
  | succ extra =>
    have hcontinue := toNat_continue hfits.lt 10
    have hten : (10 : UInt8).toNat % 64 = 10 := rfl
    cases extra with
    | zero =>
      refine (countTokens_append_le false 0 (out ++ [(cp <<< 6) ||| (10 &&& 0x3F : UInt8).toUInt32])
        (decodeFrom 0 0 (c :: rest))).trans_eq ?_
      rw [List.append_assoc]
      rfl
    | succ extra =>
      -- the newline is a part of a character that has not ended yet
      obtain ⟨wide, later, hdecode, hle⟩ := decodeFrom_wide rest (hfits.continue 10) (by omega) c
      refine (countTokens_wide_le hle false 0 out _ later).trans_eq ?_
      rw [← hdecode]
      rfl

def entryLine (entry : Str × Str) : Str := "- " ++ entry.1 ++ " = " ++ entry.2 ++ "\n"

/-- The goal and the entries of the digest, written out. -/
def factsText (goal : Str) (entries : List (Str × Str)) : Str :=
  "# Goal\n" ++ goal ++ "\n\n# Facts\n" ++ entries.flatMap entryLine

theorem factsText_newline (goal : Str) (entries : List (Str × Str)) :
    ∃ s, factsText goal entries = s ++ "\n" := by
  rcases List.eq_nil_or_concat entries with rfl | ⟨entries, entry, rfl⟩
  · exact ⟨"# Goal\n" ++ goal ++ "\n\n# Facts", by simp [factsText, lit]⟩
  · exact ⟨factsText goal entries ++ ("- " ++ entry.1 ++ " = " ++ entry.2),
      by simp [factsText, entryLine]⟩

namespace ContextManager

variable (context : ContextManager) (ctx : TurnContext)

/-- The tool results of the turn that the store has. -/
def held : List Str := ctx.recent_tool_results.filter fun id => (context.store.get id).isSome

/-- The block of a fact, cut if it has more tokens than the limit. -/
def blockOf (id : Str) : Str :=
  match context.store.get id with
  | some fact =>
    "\n## " ++ id ++ "\n" ++
      if estimate_tokens fact.content ≤ context.max_working_tokens then fact.content ++ "\n"
      else fact.content.take (context.max_working_tokens / 2) ++ "\n...[truncated, recall by id]\n"
  | none => []

/-- The goal, the digest and the blocks of all facts of the turn. -/
def fullText : Str :=
  factsText ctx.goal context.digest.toList ++ (context.held ctx).flatMap context.blockOf

theorem renderFacts_eq : context.renderFacts ctx = factsText ctx.goal context.digest.toList := by
  unfold renderFacts factsText
  induction context.digest.toList using List.reverseRecOn with
  | nil => simp
  | append_singleton entries entry ih =>
    rw [List.foldl_append, List.flatMap_append, ← List.append_assoc, ← ih]
    simp [entryLine]

theorem foldl_renderFact (ids : List Str) (render : Str) :
    (ids.filterMap fun id => (context.store.get id).map fun fact => { fact with id := id }).foldl
        context.renderFact render
      = render ++ (ids.filter fun id => (context.store.get id).isSome).flatMap context.blockOf := by
  induction ids generalizing render with
  | nil => simp
  | cons id ids ih =>
    rcases hget : context.store.get id with _ | fact
    · simp [hget, ih]
    · simp only [List.filterMap_cons, hget, Option.map_some, List.foldl_cons, ih, List.filter_cons,
        Option.isSome_some, if_true, List.flatMap_cons]
      simp only [renderFact, blockOf, hget]
      split_ifs <;> simp

theorem map_id_facts (ids : List Str) :
    (ids.filterMap fun id => (context.store.get id).map fun fact => { fact with id := id }).map
        (·.id) = ids.filter fun id => (context.store.get id).isSome := by
  rw [List.map_filterMap, ← List.filterMap_eq_filter]
  refine List.filterMap_congr fun id _ => ?_
  rcases hget : context.store.get id with _ | fact <;> simp [hget, Option.guard]

theorem render_working_set_eq :
    context.render_working_set ctx =
      if context.max_working_tokens < estimate_tokens (context.fullText ctx) then
        { render := factsText ctx.goal context.digest.toList
          fact_blocks := context.held ctx
          token_count := estimate_tokens (factsText ctx.goal context.digest.toList) }
      else
        { render := context.fullText ctx
          fact_blocks := context.held ctx
          token_count := estimate_tokens (context.fullText ctx) } := by
  unfold render_working_set
  dsimp only
  rw [foldl_renderFact, map_id_facts, renderFacts_eq]
  rfl

/-- The goal and the digest come first, so they are no more than the whole. -/
theorem estimate_factsText_le :
    estimate_tokens (factsText ctx.goal context.digest.toList)
      ≤ estimate_tokens (context.fullText ctx) := by
  obtain ⟨s, hs⟩ := factsText_newline ctx.goal context.digest.toList
  unfold fullText
  rw [hs]
  exact estimate_tokens_le s _

/-- The working set has the token count of its render, and at most `token_budget`. -/
def WithinBudget (token_budget : ℕ) : Prop :=
  (context.render_working_set ctx).token_count
      = estimate_tokens (context.render_working_set ctx).render
    ∧ (context.render_working_set ctx).token_count ≤ token_budget

theorem withinBudget_limit_iff :
    context.WithinBudget ctx context.max_working_tokens ↔
      estimate_tokens (factsText ctx.goal context.digest.toList) ≤ context.max_working_tokens := by
  have hle := context.estimate_factsText_le ctx
  unfold WithinBudget
  rw [render_working_set_eq]
  split_ifs with hlimit
  · exact ⟨fun h => h.2, fun h => ⟨rfl, h⟩⟩
  · exact ⟨fun _ => hle.trans (not_lt.1 hlimit), fun _ => ⟨rfl, not_lt.1 hlimit⟩⟩

theorem max_working_tokens_performed {T : JsonText} {context : ContextManager}
    (ops : List ContextOp) :
    (performed T context ops).max_working_tokens = context.max_working_tokens := by
  induction ops generalizing context with
  | nil => rfl
  | cons op ops ih =>
    refine (@ih (op.apply T context)).trans ?_
    cases op <;> rfl

/-- Whatever was done before, a working set keeps to the budget if and only if the goal and the
digest alone do. -/
theorem withinBudget_iff (T : JsonText) (token_budget : ℕ) (ops : List ContextOp)
    (ctx : TurnContext) :
    (performed T (.new token_budget) ops).WithinBudget ctx token_budget ↔
      estimate_tokens (factsText ctx.goal (performed T (.new token_budget) ops).digest.toList)
        ≤ token_budget := by
  have hlimit : (performed T (.new token_budget) ops).max_working_tokens = token_budget :=
    max_working_tokens_performed ops
  have h := (performed T (.new token_budget) ops).withinBudget_limit_iff ctx
  rwa [hlimit] at h

/-- A goal of ten words. -/
def longGoal : TurnContext := { goal := "find the test that fails and say why it does" }

theorem not_withinBudget_longGoal :
    ¬ (performed (.ofTable []) (.new 8) []).WithinBudget longGoal 8 := by
  unfold WithinBudget
  decide +kernel

/-- The fact blocks are ids of the turn that the store has, in order, and the render is the goal
and the digest and then just their blocks. -/
structure Described : Prop where
  blocks : (context.render_working_set ctx).fact_blocks.Sublist (context.held ctx)
  render : (context.render_working_set ctx).render = factsText ctx.goal context.digest.toList
    ++ (context.render_working_set ctx).fact_blocks.flatMap context.blockOf

theorem blockOf_ne_nil {context : ContextManager} {ctx : TurnContext} {id : Str}
    (h : id ∈ context.held ctx) : context.blockOf id ≠ [] := by
  obtain ⟨fact, hfact⟩ := Option.isSome_iff_exists.1 (List.mem_filter.1 h).2
  unfold blockOf
  rw [hfact]
  simp [lit]

/-- The fact blocks describe the render if and only if the render with all blocks keeps to the
limit, or there are none. -/
theorem described_iff :
    context.Described ctx ↔
      estimate_tokens (context.fullText ctx) ≤ context.max_working_tokens
        ∨ ∀ id ∈ ctx.recent_tool_results, context.store.get id = none := by
  have hnone : (∀ id ∈ ctx.recent_tool_results, context.store.get id = none)
      ↔ context.held ctx = [] := by
    simp [held, List.filter_eq_nil_iff]
  have heq := context.render_working_set_eq ctx
  rw [hnone]
  split_ifs at heq with hlimit
  · constructor
    · rintro ⟨-, hrender⟩
      rw [heq] at hrender
      right
      by_contra hne
      obtain ⟨id, hid⟩ := List.exists_mem_of_ne_nil _ hne
      have hnil := List.append_right_eq_self.1 hrender.symm
      exact blockOf_ne_nil hid (List.flatMap_eq_nil_iff.1 hnil id hid)
    · rintro (h | h)
      · exact absurd h (not_le.2 hlimit)
      · constructor <;> rw [heq]
        rw [h]
        exact (List.append_nil _).symm
  · refine ⟨fun _ => .inl (not_lt.1 hlimit), fun _ => ?_⟩
    constructor <;> rw [heq]
    rfl

/-- A context with one fact, which does not fit in with the goal. -/
def noRoom : ContextManager :=
  performed (.ofTable []) (.new 8) [.append "note" "one two three four five"]

def noteTurn : TurnContext :=
  { recent_tool_results := [FactStore.digest_hex "note" "one two three four five"] }

theorem not_described_noRoom : ¬ noRoom.Described noteTurn := fun h => by
  have hrender : (noRoom.render_working_set noteTurn).render
      ≠ factsText noteTurn.goal noRoom.digest.toList
        ++ (noRoom.render_working_set noteTurn).fact_blocks.flatMap noRoom.blockOf := by
    decide +kernel
  exact hrender h.render

end ContextManager

end Praxis
