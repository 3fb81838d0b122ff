import Praxis.Orchestrator

/-!
# The tool calls of a response

`OpenAIProvider` counts the calls of the chat-completion shape, `choices[0].message.tool_calls` with
a `function` in each entry. `extract_tool_calls` reads the shape of the fake provider: `tool_calls`
at the top of the response, with the name and the arguments in the entry itself.
-/

namespace Praxis

open Effect (except_bind_eq_ok)

theorem extractFrom_cons_eq_ok {T : JsonText} {k : ℕ} {tc : Json} {entries : List Json}
    {calls : List ToolCall} :
    extractFrom T k (tc :: entries) = .ok calls ↔
      ∃ name args_raw text rest, tc.value Json.getString "name" [] = .ok name
        ∧ tc.value .ok "arguments" (.object []) = .ok args_raw
        ∧ canonicalize_arguments T args_raw = .ok text
        ∧ extractFrom T (k + 1) entries = .ok rest
        ∧ calls = if name.isEmpty then rest
          else { name := name, arguments := text, ordinal := k } :: rest := by
  constructor
  · intro h
    unfold extractFrom at h
    obtain ⟨name, hname, h⟩ := except_bind_eq_ok.1 h
    obtain ⟨args_raw, hargs, h⟩ := except_bind_eq_ok.1 h
    obtain ⟨text, htext, h⟩ := except_bind_eq_ok.1 h
    obtain ⟨rest, hrest, h⟩ := except_bind_eq_ok.1 h
    refine ⟨name, args_raw, text, rest, hname, hargs, htext, hrest, ?_⟩
    split_ifs at h ⊢ <;> exact (Except.ok.inj h).symm
  · rintro ⟨name, args_raw, text, rest, hname, hargs, htext, hrest, rfl⟩
    unfold extractFrom
    refine except_bind_eq_ok.2 ⟨name, hname, except_bind_eq_ok.2 ⟨args_raw, hargs, ?_⟩⟩
    refine except_bind_eq_ok.2 ⟨text, htext, except_bind_eq_ok.2 ⟨rest, hrest, ?_⟩⟩
    split_ifs <;> rfl

/-- The ordinal of an extracted call is the position of its entry. -/
theorem extractFrom_ordinals {T : JsonText} :
    ∀ {entries : List Json} {k : ℕ} {calls : List ToolCall}, extractFrom T k entries = .ok calls →
      (calls.map (·.ordinal)).Pairwise (· < ·) ∧ ∀ call ∈ calls, k ≤ call.ordinal
  | [], k, calls, h => by
    obtain rfl : [] = calls := Except.ok.inj h
    simp
  | tc :: entries, k, calls, h => by
    obtain ⟨name, _, text, rest, -, -, -, hrest, rfl⟩ := extractFrom_cons_eq_ok.1 h
    obtain ⟨hpw, hge⟩ := extractFrom_ordinals hrest
    split_ifs
    · exact ⟨hpw, fun call hcall => Nat.le_of_succ_le (hge call hcall)⟩
    · refine ⟨List.pairwise_cons.2 ⟨fun o ho => ?_, hpw⟩, fun call hcall => ?_⟩
      · obtain ⟨call, hcall, rfl⟩ := List.mem_map.1 ho
        exact hge call hcall
      · rcases List.mem_cons.1 hcall with rfl | hcall
        · exact le_rfl
        · exact Nat.le_of_succ_le (hge call hcall)

theorem extract_tool_calls_nodup {T : JsonText} {raw : Json} {calls : List ToolCall}
    (h : extract_tool_calls T raw = .ok calls) : (calls.map (·.ordinal)).Nodup := by
  unfold extract_tool_calls at h
  split at h
  · exact (extractFrom_ordinals h).1.imp fun hlt => hlt.ne
  · obtain rfl : [] = calls := Except.ok.inj h
    exact List.nodup_nil

/-! ## The chat-completion shape -/

open OpenAIProvider (firstChoice readReply)

/-- A list of entries with the names and the arguments at their top whose named ones are, one by
one, the given functions. -/
inductive Repeats (T : JsonText) : List Json → List (Str × Json) → Prop
  | nil : Repeats T [] []
  | unnamed {fields entries functions text} :
    fields.lookup (lit "name") = none ∨ fields.lookup (lit "name") = some (.string []) →
    canonicalize_arguments T ((fields.lookup (lit "arguments")).getD (.object [])) = .ok text →
    Repeats T entries functions → Repeats T (.object fields :: entries) functions
  | named {fields entries functions name arguments text} :
    fields.lookup (lit "name") = some (.string name) → name ≠ [] →
    canonicalize_arguments T ((fields.lookup (lit "arguments")).getD (.object [])) = .ok text →
    canonicalize_arguments T arguments = .ok text →
    Repeats T entries functions →
    Repeats T (.object fields :: entries) ((name, arguments) :: functions)

variable {T : JsonText}

theorem value_arguments {fields : List (Str × Json)} :
    (Json.object fields).value .ok "arguments" (.object [])
      = .ok ((fields.lookup (lit "arguments")).getD (.object [])) := by
  simp only [Json.value]
  cases fields.lookup (lit "arguments") <;> rfl

variable {E : Type} {post : Str → Str → E → Option (ℕ × Str) × E} {self : OpenAIProvider}
  {context : Messages} {env : E} {response : ModelResponse}

/-- A chat completion with this message. -/
def chatBody (message : List (Str × Json)) : Json :=
  .ofFields [("choices", .array [.ofFields [("message", .ofFields message)]])]

/-- An entry of a message's `tool_calls`. -/
def chatCall (name arguments : Str) : Json :=
  .ofFields
    [("id", .string "c1"), ("type", .string "function"),
      ("function", .ofFields [("name", .string name), ("arguments", .string arguments)])]

def chatProvider : OpenAIProvider := { model := "m", path := "/v1" }

end Praxis
