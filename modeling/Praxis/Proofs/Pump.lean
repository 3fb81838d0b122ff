import Praxis.JsonRpc
import Praxis.Proofs.Unicode

/-!
# Answers to incoming requests

`pump_once` answers a request if a handler is registered for its method and returns. Without a
handler it says nothing, and what a handler throws it lets through: a message is dealt with as it
should be exactly if the handlers fit it (`settles_iff`).
-/

namespace Praxis

open Effect (Prog)

/-- The library writes exactly the values whose strings are all valid, and reads only such values,
none from an empty text. -/
structure JsonText.Strict (T : JsonText) : Prop where
  parse : ∀ s j, T.parse s = some j → s ≠ [] ∧ j.Unicode
  dump : ∀ j, (∃ s, T.dump j = .ok s) ↔ j.Unicode

namespace JsonRpcClient

variable {T : JsonText} {handlers : AList fun _ : Str => Handler} {req : Json}
  {c : JsonRpcClient StreamTransport} {raw : Str} {rest : List Str}

/-- The id that the answer to a message is to carry, if the message is a request. -/
def owedId (req : Json) : Option Json :=
  if req.contains "method" then (req.field? "id").filter (· ≠ .null) else none

/-- What the handler for the method of a message returns, if there is one and it does. -/
def handled (handlers : AList fun _ : Str => Handler) (req : Json) : Option Json :=
  match req.field? "method" with
  | some (.string method) => (handlers.lookup method).bind fun handler =>
    (handler ((req.field? "params").getD (.object []))).toOption
  | _ => none

/-- The text is a response with the id, with what the handler has returned or with an error. -/
def IsAnswer (T : JsonText) (handlers : AList fun _ : Str => Handler) (req id : Json)
    (payload : Str) : Prop :=
  ∃ resp, T.dump resp = .ok payload ∧ resp.field? "id" = some id
    ∧ match handled handlers req with
      | some result => resp.field? "result" = some result ∧ resp.contains "error" = false
      | none => resp.contains "error" = true

/-- What is owed to the peer for a message: one answer if it is a request, and nothing if it is
not. -/
def Owed (T : JsonText) (handlers : AList fun _ : Str => Handler) (req : Json)
    (sent : List Str) : Prop :=
  match owedId req with
  | some id => ∃ payload, sent = [payload] ∧ IsAnswer T handlers req id payload
  | none => sent = []

/-- The message is taken without an exception, and what is owed for it is sent. -/
def Settles (T : JsonText) (handlers : AList fun _ : Str => Handler) (req : Json)
    (c : JsonRpcClient StreamTransport) : Prop :=
  ∃ c' sent, (pump_once T StreamTransport.transport handlers).exec c = (.ok (), c')
    ∧ c'.transport.sent = c.transport.sent ++ sent ∧ Owed T handlers req sent

/-- The method of the message is a text, the empty one if it has none. Without a handler for it the
message is no request; a handler returns, and where there is an id the message has a method and the
result can be written. -/
def Fits (handlers : AList fun _ : Str => Handler) : Json → Prop
  | .object fields =>
    match (fields.lookup (lit "method")).getD (.string []) with
    | .string method =>
      match handlers.lookup method with
      | none => owedId (.object fields) = none
      | some handler => ∃ result,
        handler ((fields.lookup (lit "params")).getD (.object [])) = .ok result
          ∧ ∀ id, fields.lookup (lit "id") = some id → id ≠ .null →
            (fields.lookup (lit "method")).isSome ∧ result.Unicode
    | _ => False
  | _ => False

/-! ## What is sent -/

/-- The text that is sent for a message, if any is. -/
def reply (T : JsonText) (handlers : AList fun _ : Str => Handler) (req : Json) :
    Except Exn (Option Str) := do
  let method ← req.value Json.getString "method" []
  match handlers.lookup method with
  | none => pure none
  | some handler => do
    let params ← req.value .ok "params" (.object [])
    let result ← handler params
    match req.field? "id" with
    | none | some .null => pure none
    | some id => do
      let payload ← T.dump (responseJson id result)
      pure (some payload)

theorem ok_bind {α β : Type} (a : α) (f : α → Except Exn β) : (Except.ok a >>= f) = f a := rfl

theorem exec_pump_once (hscripted : c.transport.scripted = raw :: rest) (hraw : raw ≠ [])
    (hparse : T.parse raw = some req) :
    (pump_once T StreamTransport.transport handlers).exec c =
      match reply T handlers req with
      | .error e => (.error e, { c with transport := { c.transport with scripted := rest } })
      | .ok none => (.ok (), { c with transport := { c.transport with scripted := rest } })
      | .ok (some payload) => (.ok (), { c with transport :=
          { sent := c.transport.sent ++ [payload], scripted := rest } }) := by
  have hempty : raw.isEmpty = false := by simpa using hraw
  unfold pump_once reply
  simp only [Prog.exec_bind, Prog.exec_of, StreamTransport.transport, hscripted, List.headD_cons,
    List.tail_cons, hempty, Bool.false_eq_true, if_false, Prog.exec_ofExcept, hparse]
  rcases req.value Json.getString "method" [] with e | method
  · rfl
  simp only [ok_bind]
  rcases handlers.lookup method with _ | handler
  · rfl
  simp only [Prog.exec_bind, Prog.exec_ofExcept]
  rcases req.value .ok "params" (.object []) with e | params
  · rfl
  simp only [ok_bind]
  rcases handler params with e | result
  · rfl
  simp only [ok_bind]
  rcases req.field? "id" with _ | id
  · rfl
  cases id with
  | null => rfl
  | _ =>
    simp only [Prog.exec_bind, Prog.exec_ofExcept]
    rcases T.dump (responseJson _ result) with e | payload
    · rfl
    · rfl

theorem settles_iff_reply (hscripted : c.transport.scripted = raw :: rest) (hraw : raw ≠ [])
    (hparse : T.parse raw = some req) :
    Settles T handlers req c
      ↔ ∃ sent, reply T handlers req = .ok sent ∧ Owed T handlers req sent.toList := by
  unfold Settles
  rw [exec_pump_once hscripted hraw hparse]
  rcases reply T handlers req with e | sent
  · simp
  · cases sent <;> simp

theorem responseJson_id (id result : Json) : (responseJson id result).field? "id" = some id := rfl

theorem responseJson_result (id result : Json) :
    (responseJson id result).field? "result" = some result := rfl

theorem responseJson_error (id result : Json) :
    (responseJson id result).contains "error" = false := rfl

theorem unicode_field {j value : Json} {key : Str} (hj : j.Unicode)
    (h : j.field? key = some value) : value.Unicode := by
  cases j with
  | object fields =>
    obtain ⟨before, after, rfl, -⟩ := List.lookup_eq_some_iff.1 h
    exact (Json.unicode_object.1 hj (key, value) (by simp)).2
  | _ => cases h

/-- A response can be written if its id and its result can. -/
theorem unicode_responseJson {id result : Json} :
    (responseJson id result).Unicode ↔ id.Unicode ∧ result.Unicode := by
  refine ⟨fun h => ⟨unicode_field h (responseJson_id id result),
    unicode_field h (responseJson_result id result)⟩, fun h => Json.unicode_ofFields ?_⟩
  simp only [Json.UnicodeFields, List.forall_mem_cons, Json.unicode_string]
  exact ⟨⟨valid_lit (by decide), valid_lit (by decide)⟩, ⟨valid_lit (by decide), h.1⟩,
    ⟨valid_lit (by decide), h.2⟩, List.forall_mem_nil _⟩

/-! ## Which messages are settled -/

section Object

variable {fields : List (Str × Json)} {method : Str} {handler : Handler} {result id : Json}

theorem value_method :
    (Json.object fields).value Json.getString "method" []
      = ((fields.lookup (lit "method")).getD (.string [])).getString := by
  unfold Json.value
  dsimp only
  rcases fields.lookup (lit "method") with _ | j <;> rfl

theorem value_params :
    (Json.object fields).value .ok "params" (.object [])
      = .ok ((fields.lookup (lit "params")).getD (.object [])) := by
  unfold Json.value
  dsimp only
  rcases fields.lookup (lit "params") with _ | j <;> rfl

theorem reply_throws {e : Exn} (hmethod : req.value Json.getString "method" [] = .error e) :
    reply T handlers req = .error e := by
  unfold reply
  rw [hmethod]
  rfl

theorem owed_nil : Owed T handlers req [] ↔ owedId req = none := by
  unfold Owed
  cases owedId req <;> simp

theorem owedId_of_null (hid : ∀ id, fields.lookup (lit "id") = some id → id = .null) :
    owedId (.object fields) = none := by
  unfold owedId
  split_ifs
  · exact Option.filter_eq_none_iff.2 fun id h => by simp [hid id h]
  · rfl

section Read

variable (hread : (fields.lookup (lit "method")).getD (.string []) = .string method)

include hread

theorem value_read : (Json.object fields).value Json.getString "method" [] = .ok method := by
  rw [value_method, hread]
  rfl

theorem reply_unknown (hnone : handlers.lookup method = none) :
    reply T handlers (.object fields) = .ok none := by
  unfold reply
  simp only [value_read hread, ok_bind, hnone]
  rfl

variable (hhandler : handlers.lookup method = some handler)

include hhandler

theorem reply_handled :
    reply T handlers (.object fields) =
      (handler ((fields.lookup (lit "params")).getD (.object []))).bind fun result =>
        match fields.lookup (lit "id") with
        | none | some .null => .ok none
        | some id => (T.dump (responseJson id result)).map some := by
  unfold reply
  simp only [value_read hread, ok_bind, hhandler, value_params]
  rfl

variable (hresult : handler ((fields.lookup (lit "params")).getD (.object [])) = .ok result)

include hresult

theorem reply_answered (hid : fields.lookup (lit "id") = some id) (hne : id ≠ .null) :
    reply T handlers (.object fields) = (T.dump (responseJson id result)).map some := by
  rw [reply_handled hread hhandler, hresult]
  simp only [Except.bind, hid]

theorem reply_unanswered (hid : ∀ id, fields.lookup (lit "id") = some id → id = .null) :
    reply T handlers (.object fields) = .ok none := by
  rw [reply_handled hread hhandler, hresult]
  simp only [Except.bind]
  rcases hlookup : fields.lookup (lit "id") with _ | id
  · rfl
  · obtain rfl := hid id hlookup
    rfl

/-- The response that the client writes is the one that is owed, if the message has a method. -/
theorem owed_response {payload : Str} (hid : fields.lookup (lit "id") = some id) (hne : id ≠ .null)
    (hdump : T.dump (responseJson id result) = .ok payload) :
    Owed T handlers (.object fields) [payload] ↔ (fields.lookup (lit "method")).isSome := by
  have hfilter : ((Json.object fields).field? "id").filter (· ≠ .null) = some id := by
    simp [Json.field?, hid, hne]
  unfold Owed owedId Json.contains
  rw [hfilter]
  rcases hmethod : fields.lookup (lit "method") with _ | j
  · simp [Json.field?, hmethod]
  · rw [hmethod] at hread
    obtain rfl : j = .string method := hread
    have hhandled : handled handlers (.object fields) = some result := by
      simp [handled, Json.field?, hmethod, hhandler, hresult, Except.toOption]
    simp only [Json.field?, hmethod, Option.isSome_some, if_true, iff_true]
    refine ⟨payload, rfl, responseJson id result, hdump, responseJson_id id result, ?_⟩
    rw [hhandled]
    exact ⟨responseJson_result id result, responseJson_error id result⟩

/-- A handler that returns settles the message if an id comes with a method and lets the result be
written. -/
theorem settles_handled (hunicode : (Json.object fields).Unicode) (hT : T.Strict) :
    (∃ sent, reply T handlers (.object fields) = .ok sent
        ∧ Owed T handlers (.object fields) sent.toList)
      ↔ ∀ id, fields.lookup (lit "id") = some id → id ≠ .null →
        (fields.lookup (lit "method")).isSome ∧ result.Unicode := by
  by_cases hid : ∃ id, fields.lookup (lit "id") = some id ∧ id ≠ .null
  · obtain ⟨id, hid, hne⟩ := hid
    have hwritten : (∃ payload, T.dump (responseJson id result) = .ok payload)
        ↔ result.Unicode := by
      rw [hT.dump, unicode_responseJson]
      exact and_iff_right
        (unicode_field hunicode (show (Json.object fields).field? "id" = some id from hid))
    rw [reply_answered hread hhandler hresult hid hne]
    constructor
    · rintro ⟨sent, hsent, howed⟩ id' hid' -
      rcases hdump : T.dump (responseJson id result) with e | payload
      · rw [hdump] at hsent
        cases hsent
      · rw [hdump] at hsent
        obtain rfl := Except.ok.inj hsent
        exact ⟨(owed_response hread hhandler hresult hid hne hdump).1 howed,
          hwritten.1 ⟨payload, hdump⟩⟩
    · intro h
      obtain ⟨hsome, hresultUnicode⟩ := h id hid hne
      obtain ⟨payload, hdump⟩ := hwritten.2 hresultUnicode
      rw [hdump]
      exact ⟨some payload, rfl, (owed_response hread hhandler hresult hid hne hdump).2 hsome⟩
  · have hnull : ∀ id, fields.lookup (lit "id") = some id → id = .null := by
      simpa using hid
    rw [reply_unanswered hread hhandler hresult hnull]
    exact iff_of_true ⟨none, rfl, owed_nil.2 (owedId_of_null hnull)⟩
      fun id hid hne => absurd (hnull id hid) hne

end Read

end Object

/-- The next message is settled exactly if the handlers fit it. -/
theorem settles_iff (hT : T.Strict) (hscripted : c.transport.scripted = raw :: rest)
    (hparse : T.parse raw = some req) : Settles T handlers req c ↔ Fits handlers req := by
  obtain ⟨hraw, hunicode⟩ := hT.parse raw req hparse
  rw [settles_iff_reply hscripted hraw hparse]
  cases req with
  | object fields =>
    rcases hread : (fields.lookup (lit "method")).getD (.string []) with
      _ | _ | _ | _ | _ | method | _ | _
    case string =>
      rcases hhandler : handlers.lookup method with _ | handler
      · simp only [Fits, hread, hhandler, reply_unknown hread hhandler]
        simp [owed_nil]
      · simp only [Fits, hread, hhandler]
        rcases hresult : handler ((fields.lookup (lit "params")).getD (.object [])) with e | result
        · simp [reply_handled hread hhandler, hresult, Except.bind]
        · rw [settles_handled hread hhandler hresult hunicode hT]
          simp
    -- a method of any other type makes `value` throw
    all_goals
      have hmethod : (Json.object fields).value Json.getString "method" []
          = .error (.type_error 302) := by
        rw [value_method, hread]
        rfl
      simp [Fits, hread, reply_throws hmethod]
  | _ => exact iff_of_false (fun ⟨_, h, _⟩ => by cases h) id

def echoRequest : Json :=
  .ofFields
    [("jsonrpc", .string "2.0"), ("id", .number_unsigned 7), ("method", .string "echo"),
      ("params", .ofFields [("x", .number_unsigned 42)])]

def echoRequestText : Str :=
  "\x7b\"jsonrpc\":\"2.0\",\"id\":7,\"method\":\"echo\",\"params\":\x7b\"x\":42\x7d\x7d"

def echoAnswerText : Str := "\x7b\"id\":7,\"jsonrpc\":\"2.0\",\"result\":\x7b\"x\":42\x7d\x7d"

/-- A library that knows the texts of the request and its answer. -/
def echoText : JsonText where
  parse := fun s => if s = echoRequestText then some echoRequest else none
  dump := fun j =>
    if j.Unicode then
      .ok (if j = responseJson (.number_unsigned 7) (.ofFields [("x", .number_unsigned 42)])
        then echoAnswerText else [])
    else .error (.type_error 316)

theorem strict_echoText : echoText.Strict where
  parse := fun s j h => by
    obtain ⟨rfl, h⟩ := Option.ite_none_right_eq_some.1 h
    obtain rfl := Option.some.inj h
    decide +kernel
  dump := fun j => by
    unfold echoText
    dsimp only
    split_ifs with h <;> simp [h]

def echoHandlers : AList fun _ : Str => Handler := register_handler ∅ "echo" .ok

def echoClient : JsonRpcClient StreamTransport where
  transport := { scripted := [echoRequestText] }

theorem settles_echo : Settles echoText echoHandlers echoRequest echoClient := by
  refine (settles_iff strict_echoText rfl (by decide +kernel)).2 ?_
  show ∃ result : Json, Except.ok (Json.ofFields [("x", .number_unsigned 42)]) = Except.ok result
    ∧ ∀ id : Json, some (Json.number_unsigned 7) = some id → id ≠ .null →
      true = true ∧ result.Unicode
  exact ⟨_, rfl, fun id hid hne => ⟨rfl, by decide +kernel⟩⟩

/-- Nothing is sent for a request whose method has no handler. -/
theorem not_settles_unknown :
    owedId echoRequest = some (.number_unsigned 7)
      ∧ ¬ Settles echoText ∅ echoRequest echoClient := by
  refine ⟨by decide +kernel, ?_⟩
  rintro ⟨c', sent, hexec, hsent, howed⟩
  have hnone : ((pump_once echoText StreamTransport.transport ∅).exec echoClient).2.transport.sent
      = [] := by decide +kernel
  rw [hexec] at hnone
  obtain rfl : sent = [] := (hsent.symm.trans hnone)
  exact absurd (owed_nil.1 howed) (by decide +kernel)

end JsonRpcClient

end Praxis
