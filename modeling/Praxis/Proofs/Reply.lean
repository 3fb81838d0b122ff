import Praxis.Proofs.Extract
import Praxis.Proofs.Unicode

/-!
# Replies that throw

Only the parsing of a reply is within the `try` of `complete`. Of the JSON of a reply it makes what
it should if and only if the first choice, where there is one, is an object with a message that is
an object and whose content is absent or a string (`complete_fits_iff`).
-/

namespace Praxis

open Utf8 (Valid)

namespace OpenAIProvider

variable {E : Type} {T : JsonText} {post : Str → Str → E → Option (ℕ × Str) × E}
  {self : OpenAIProvider} {context : Messages} {env : E} {parsed : Json}

/-- What the HTTP client gives for the request. -/
def posted (T : JsonText) (post : Str → Str → E → Option (ℕ × Str) × E) (self : OpenAIProvider)
    (context : Messages) (env : E) : Option (ℕ × Str) :=
  match T.dump (self.requestBody context) with
  | .error _ => none
  | .ok body => (post self.path body env).1

/-- The JSON of a reply with status 200. -/
def replied (T : JsonText) : Option (ℕ × Str) → Option Json
  | none => none
  | some (status, reply) => if status = 200 then T.parse reply else none

/-- The tool calls of a message. -/
def entries (fields : List (Str × Json)) : List Json :=
  match fields.lookup (lit "tool_calls") with
  | some (.array entries) => entries
  | _ => []

/-- The content and the number of tool calls of the first choice. Its message is an object; content
that is null or absent is empty. -/
def usable (parsed : Json) : Option (Str × ℕ) :=
  match (firstChoice parsed).bind fun choice => choice.field? "message" with
  | some (.object fields) =>
    match fields.lookup (lit "content") with
    | none | some .null => some ([], (entries fields).length)
    | some (.string content) => some (content, (entries fields).length)
    | _ => none
  | _ => none

/-- What `complete` is to return, given the usable part of the reply. -/
def Fits (answer : Option (Str × ℕ)) : Except Exn (Result ModelResponse) → Prop
  | .ok (.ok response) =>
    answer = some (response.outcome.plan, response.outcome.tool_count.toNat)
  | .ok (.error err) => answer = none ∧ err.kind = .ProviderFailure
  | .error _ => False

/-- The first choice, if there is one, is an object with a message that is an object, whose content
is absent or a string; there are fewer than `2 ^ 32` tool calls. -/
def Plain (parsed : Json) : Prop :=
  ∀ choice, firstChoice parsed = some choice → ∃ fields,
    choice.field? "message" = some (.object fields)
      ∧ (fields.lookup (lit "content") = none
        ∨ ∃ content, fields.lookup (lit "content") = some (.string content))
      ∧ (entries fields).length < 2 ^ 32

/-- The length that a `std::uint32_t` holds. -/
theorem ofNat_toNat_eq_iff {n : ℕ} : (UInt32.ofNat n).toNat = n ↔ n < 2 ^ 32 := by
  rw [UInt32.toNat_ofNat']
  constructor
  · intro h
    rw [← h]
    exact Nat.mod_lt _ (by decide)
  · exact Nat.mod_eq_of_lt

/-- The content of a message, as `complete` reads it. -/
def readContent (fields : List (Str × Json)) : Except Exn Str :=
  match fields.lookup (lit "content") with
  | none => .ok []
  | some content => content.getString

/-- A message that is an object: only its content can make the reading throw. -/
theorem readReply_of_fields {choice : Json} {fields : List (Str × Json)}
    (hchoice : firstChoice parsed = some choice)
    (hmessage : choice.field? "message" = some (.object fields)) :
    readReply parsed = (readContent fields).bind fun plan => .ok (.ok
      { outcome :=
          { plan := plan
            has_tool_use := !(entries fields).isEmpty
            tool_count := UInt32.ofNat (entries fields).length }
        raw := parsed }) := by
  cases choice with
  | object outer =>
    have hindex : (Json.object outer).index "message" = .ok (.object fields) := by
      rw [Json.index, show outer.lookup (lit "message") = some (.object fields) from hmessage]
      rfl
    have hcontent : (Json.object fields).value Json.getString "content" []
        = readContent fields := by
      rw [readContent, Json.value]
      cases fields.lookup (lit "content") <;> rfl
    rw [readReply, hchoice]
    dsimp only
    rw [hindex]
    show ((Json.object fields).value Json.getString "content" []).bind _ = _
    rw [hcontent]
    refine congrArg _ (funext fun plan => ?_)
    rw [entries, Json.value]
    rcases fields.lookup (lit "tool_calls") with _ | found
    · rfl
    · cases found <;> rfl
  | _ => cases hmessage

/-- Any other first choice makes it throw. -/
theorem readReply_of_no_fields {choice : Json} (hchoice : firstChoice parsed = some choice)
    (hmessage : ∀ fields, choice.field? "message" ≠ some (.object fields)) :
    ∃ e, readReply parsed = .error e := by
  rw [readReply, hchoice]
  dsimp only
  cases choice with
  | object outer =>
    have hindex : (Json.object outer).index "message"
        = .ok (((Json.object outer).field? "message").getD .null) := rfl
    rw [hindex]
    rcases hfield : (Json.object outer).field? "message" with _ | message
    · exact ⟨_, rfl⟩
    · cases message with
      | object fields => exact absurd hfield (hmessage fields)
      | _ => exact ⟨_, rfl⟩
  | _ => exact ⟨_, rfl⟩

theorem readContent_eq_ok_iff {fields : List (Str × Json)} :
    (∃ plan, readContent fields = .ok plan) ↔ fields.lookup (lit "content") = none
      ∨ ∃ content, fields.lookup (lit "content") = some (.string content) := by
  rw [readContent]
  rcases fields.lookup (lit "content") with _ | content
  · exact iff_of_true ⟨[], rfl⟩ (.inl rfl)
  · cases content with
    | string content => exact iff_of_true ⟨content, rfl⟩ (.inr ⟨content, rfl⟩)
    | _ => exact iff_of_false nofun nofun

theorem usable_of_fields {choice : Json} {fields : List (Str × Json)} {plan : Str}
    (hchoice : firstChoice parsed = some choice)
    (hmessage : choice.field? "message" = some (.object fields))
    (hplan : readContent fields = .ok plan) :
    usable parsed = some (plan, (entries fields).length) := by
  rw [usable, hchoice, Option.bind_some, hmessage]
  rw [readContent] at hplan
  dsimp only
  rcases hcontent : fields.lookup (lit "content") with _ | content <;> rw [hcontent] at hplan
  · rw [← Except.ok.inj hplan]
  · cases content with
    | string content => rw [← Except.ok.inj hplan]
    | _ => cases hplan

theorem readReply_fits_iff : Fits (usable parsed) (readReply parsed) ↔ Plain parsed := by
  rcases hchoice : firstChoice parsed with _ | choice
  · rw [readReply, usable, Plain, hchoice]
    exact iff_of_true ⟨rfl, rfl⟩ nofun
  by_cases hfields : ∃ fields, choice.field? "message" = some (.object fields)
  · obtain ⟨fields, hmessage⟩ := hfields
    have hplain : Plain parsed ↔ (∃ plan, readContent fields = .ok plan)
        ∧ (entries fields).length < 2 ^ 32 := by
      rw [readContent_eq_ok_iff]
      constructor
      · intro h
        obtain ⟨fields', hmessage', hcontent, hlength⟩ := h choice hchoice
        obtain rfl := Json.object.inj (Option.some.inj (hmessage.symm.trans hmessage'))
        exact ⟨hcontent, hlength⟩
      · rintro ⟨hcontent, hlength⟩ choice' hchoice'
        obtain rfl := Option.some.inj (hchoice.symm.trans hchoice')
        exact ⟨fields, hmessage, hcontent, hlength⟩
    rw [readReply_of_fields hchoice hmessage, hplain]
    rcases hcontent : readContent fields with e | plan
    · exact iff_of_false id fun h => nomatch h.1
    · rw [usable_of_fields hchoice hmessage hcontent]
      have hcount := ofNat_toNat_eq_iff (n := (entries fields).length)
      constructor
      · intro h
        exact ⟨⟨plan, rfl⟩, hcount.1 (Prod.mk.inj (Option.some.inj h)).2.symm⟩
      · rintro ⟨-, hlength⟩
        exact congrArg (fun count => some (plan, count)) (hcount.2 hlength).symm
  · rw [not_exists] at hfields
    obtain ⟨e, he⟩ := readReply_of_no_fields hchoice hfields
    rw [he]
    refine iff_of_false id fun h => ?_
    obtain ⟨fields, hmessage, -⟩ := h choice hchoice
    exact hfields fields hmessage

theorem requestBody_eq (self : OpenAIProvider) (context : Messages) : self.requestBody context
    = .object [(lit "messages", .array (context.map requestMessage)),
      (lit "model", .string self.model)] := rfl

theorem unicode_requestMessage {msg : Message} (h : msg.Unicode) :
    (requestMessage msg).Unicode := by
  have hfields : ∀ f ∈ [(lit "role", Json.string msg.role), (lit "content", .string msg.content)],
      Valid f.1 ∧ f.2.Unicode := by
    simp only [List.forall_mem_cons, Json.unicode_string]
    exact ⟨⟨valid_lit (by decide), h.role⟩, ⟨valid_lit (by decide), h.content⟩, nofun⟩
  rw [requestMessage]
  rcases hcalls : msg.tool_calls with _ | calls
  · exact Json.unicode_ofFields hfields
  · refine Json.unicode_ofFields (List.forall_mem_append.2 ⟨hfields, ?_⟩)
    exact List.forall_mem_singleton.2 ⟨valid_lit (by decide), h.tool_calls calls hcalls⟩

/-- Of a request for valid messages only the name of the model may not be valid. -/
theorem unicode_requestBody_iff (hcontext : ∀ msg ∈ context, msg.Unicode) :
    (self.requestBody context).Unicode ↔ Valid self.model := by
  have hmessages : (Json.array (context.map requestMessage)).Unicode := by
    rw [Json.unicode_array, List.forall_mem_map]
    exact fun msg hmsg => unicode_requestMessage (hcontext msg hmsg)
  rw [requestBody_eq, Json.unicode_object]
  simp only [Json.UnicodeFields, List.forall_mem_cons, Json.unicode_string]
  constructor
  · rintro ⟨-, ⟨-, hmodel⟩, -⟩
    exact hmodel
  · exact fun hmodel => ⟨⟨valid_lit (by decide), hmessages⟩, ⟨valid_lit (by decide), hmodel⟩,
      List.forall_mem_nil _⟩

/-- Where `dump` writes what is Unicode and nothing else, `complete` makes of a reply what it
should if and only if the model's name is valid and the JSON of the reply is plain. -/
theorem complete_fits_iff (hdump : ∀ j, (∃ text, T.dump j = .ok text) ↔ j.Unicode)
    (hcontext : ∀ msg ∈ context, msg.Unicode) :
    Fits ((replied T (posted T post self context env)).bind usable)
        (self.complete T post context env).1
      ↔ Valid self.model
        ∧ ∀ parsed, replied T (posted T post self context env) = some parsed → Plain parsed := by
  have hwritten := (hdump (self.requestBody context)).trans (unicode_requestBody_iff hcontext)
  rw [complete, posted]
  rcases hbody : T.dump (self.requestBody context) with e | body
  · exact iff_of_false id fun h => by
      obtain ⟨text, htext⟩ := hwritten.2 h.1
      rw [hbody] at htext
      cases htext
  · have hmodel := hwritten.1 ⟨body, hbody⟩
    dsimp only
    rcases hpost : post self.path body env with ⟨_ | ⟨status, reply⟩, env'⟩
    · exact iff_of_true ⟨rfl, rfl⟩ ⟨hmodel, nofun⟩
    · dsimp only [replied]
      by_cases hstatus : status = 200
      · rw [if_pos hstatus, if_neg (not_not.2 hstatus)]
        rcases hparse : T.parse reply with _ | parsed
        · exact iff_of_true ⟨rfl, rfl⟩ ⟨hmodel, nofun⟩
        · rw [Option.bind_some, readReply_fits_iff]
          constructor
          · rintro hplain
            refine ⟨hmodel, fun parsed' h => ?_⟩
            rwa [← Option.some.inj h]
          · exact fun h => h.2 parsed rfl
      · rw [if_neg hstatus, if_pos hstatus]
        exact iff_of_true ⟨rfl, rfl⟩ ⟨hmodel, nofun⟩

/-! ## A reply with a tool call -/

/-- A library that reads one reply. -/
def replyText (reply : Str) (body : Json) : JsonText where
  parse := fun s => if s = reply then some body else none
  dump := fun j =>
    if j.Unicode then
      .ok (if j = chatProvider.requestBody [] then
        "\x7b\x22messages\x22:[],\x22model\x22:\x22m\x22\x7d" else [])
    else .error (.type_error 316)

theorem dump_replyText (reply : Str) (body j : Json) :
    (∃ text, (replyText reply body).dump j = .ok text) ↔ j.Unicode := by
  unfold replyText
  dsimp only
  split_ifs with hj
  · exact iff_of_true ⟨_, rfl⟩ hj
  · exact iff_of_true ⟨_, rfl⟩ hj
  · exact iff_of_false nofun hj

def replying (reply _ _ : Str) (env : Unit) : Option (ℕ × Str) × Unit := (some (200, reply), env)

def answerMessage : List (Str × Json) := [("content", .string "done")]

def answerReply : Str :=
  "\x7b\"choices\":[\x7b\"message\":\x7b\"content\":\"done\"\x7d\x7d]\x7d"

theorem complete_fits_answer :
    Fits (some (lit "done", 0)) (chatProvider.complete
      (replyText answerReply (chatBody answerMessage)) (replying answerReply) [] ()).1 := by
  have hreplied : replied (replyText answerReply (chatBody answerMessage))
      (posted (replyText answerReply (chatBody answerMessage)) (replying answerReply) chatProvider
        [] ()) = some (chatBody answerMessage) := by decide
  have hiff := @complete_fits_iff Unit (replyText answerReply (chatBody answerMessage))
    (replying answerReply) chatProvider [] () (dump_replyText answerReply (chatBody answerMessage))
    (List.forall_mem_nil _)
  rw [hreplied] at hiff
  refine hiff.2 ⟨valid_lit (by decide), fun parsed h choice hchoice => ?_⟩
  obtain rfl := Option.some.inj h
  obtain rfl := Option.some.inj hchoice
  exact ⟨answerMessage, rfl, .inr ⟨"done", rfl⟩, by decide⟩

/-- A message with one tool call and no content. -/
def callMessage : List (Str × Json) :=
  [("content", .null), ("tool_calls", .array [chatCall "f" []])]

def callReply : Str :=
  "\x7b\"choices\":[\x7b\"message\":\x7b\"content\":null,\"tool_calls\":[\x7b\"function\":\x7b"
    ++ "\"arguments\":\"\",\"name\":\"f\"\x7d,\"id\":\"c1\",\"type\":\"function\"\x7d]\x7d\x7d]\x7d"

/-- The choice is usable, and `complete` throws. -/
theorem complete_throws : ¬ ∀ (T : JsonText)
    (post : Str → Str → Unit → Option (ℕ × Str) × Unit) (self : OpenAIProvider)
    (context : Messages), (∀ j, (∃ text, T.dump j = .ok text) ↔ j.Unicode) →
    (∀ msg ∈ context, msg.Unicode) → Valid self.model →
    Fits ((replied T (posted T post self context ())).bind usable)
      (self.complete T post context ()).1 := by
  intro h
  have hfits := h _ (replying callReply) chatProvider []
    (dump_replyText callReply (chatBody callMessage)) (List.forall_mem_nil _)
    (valid_lit (by decide))
  have husable : (replied (replyText callReply (chatBody callMessage))
      (posted (replyText callReply (chatBody callMessage)) (replying callReply) chatProvider
        [] ())).bind usable = some ([], 1) := by decide
  have hthrown : (chatProvider.complete (replyText callReply (chatBody callMessage))
      (replying callReply) [] ()).1 = .error (.type_error 302) := by decide
  rw [husable, hthrown] at hfits
  exact hfits

end OpenAIProvider

end Praxis
