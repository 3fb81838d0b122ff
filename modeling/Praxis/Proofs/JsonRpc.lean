import Praxis.JsonRpc
import Mathlib.Data.List.Induction

/-!
# Whose answer a call gets

The calls on a client are numbered in the order in which they send, and the messages of the stream
go to them in the order in which they receive. So every call gets its own answer exactly if the
stream has the answers, and nothing else before the last of them, in the order in which the calls
come for them (`own_answers_iff`).
-/

namespace Praxis

open Effect (Prog)

/-- The id that a call has sent. -/
def CallState.sentId : CallState → Option ℤ
  | .waiting id => some id
  | .ended id _ _ => some id
  | _ => none

namespace RpcState

open JsonRpcClient

variable {T : JsonText} {request : ℕ → Str × Json} {stream : List Str} {σ : List RpcStep}
  {s s' : RpcState} {a : RpcStep} {i j k : ℕ} {id : ℤ} {raw : Str} {outcome : Except Exn Json}

/-- The calls in the order in which they send. -/
def sends (σ : List RpcStep) : List ℕ :=
  σ.filterMap fun
    | .send i => some i
    | .receive _ => none

/-- The calls in the order in which they receive. -/
def receives (σ : List RpcStep) : List ℕ :=
  σ.filterMap fun
    | .send _ => none
    | .receive i => some i

/-- The id of a call: its place among those that send. -/
def idOf (σ : List RpcStep) (i : ℕ) : ℤ := 1 + (sends σ).idxOf i

/-- The error that a response carries; null stands for none. -/
def errorOf (resp : Json) : Option Json := (resp.field? "error").filter (· ≠ .null)

/-- The message is a response to the request with the id: it answers it with an error or a
result. -/
def isResponse (T : JsonText) (id : ℤ) (raw : Str) : Bool :=
  !raw.isEmpty && (T.parse raw).any fun resp =>
    respondsTo id resp && ((errorOf resp).isSome || resp.contains "result")

/-- The outcome is what the response says: its error is thrown, with its text, or else its result
returned. -/
def Tells (T : JsonText) (resp : Json) (outcome : Except Exn Json) : Prop :=
  match errorOf resp with
  | some error => ∃ e, outcome = .error e ∧ ∀ what, T.dump error = .ok what → e = .user what
  | none => ∃ result, resp.field? "result" = some result ∧ outcome = .ok result

/-- Every call that has ended took the response with its id and returned the result that it has, or
threw its error, and took no response to another call. -/
structure OwnAnswers (T : JsonText) (s : RpcState) : Prop where
  own : ∀ i id raw outcome, s.calls i = .ended id raw outcome →
    isResponse T id raw ∧ ∃ resp, T.parse raw = some resp ∧ Tells T resp outcome
  others : ∀ i id raw outcome, s.calls i = .ended id raw outcome →
    ∀ j id', (s.calls j).sentId = some id' → isResponse T id' raw → j = i

theorem steps_snoc :
    ∀ {s : RpcState} {σ : List RpcStep},
      s.steps T request (σ ++ [a]) = (s.steps T request σ).bind fun s => s.step T request a
  | s, [] => by simp [steps]
  | s, b :: σ => by
    simp only [List.cons_append, steps]
    rcases s.step T request b with _ | s
    · rfl
    · exact steps_snoc

theorem sends_snoc (σ : List RpcStep) (a : RpcStep) : sends (σ ++ [a]) = sends σ ++ sends [a] :=
  List.filterMap_append

theorem receives_snoc (σ : List RpcStep) (a : RpcStep) :
    receives (σ ++ [a]) = receives σ ++ receives [a] := List.filterMap_append

theorem idOf_snoc (h : i ∈ sends σ) (a : RpcStep) : idOf (σ ++ [a]) i = idOf σ i := by
  rw [idOf, idOf, sends_snoc, List.idxOf_append_of_mem h]

theorem idOf_inj (hi : i ∈ sends σ) (h : idOf σ i = idOf σ j) : i = j := by
  unfold idOf at h
  exact (List.idxOf_inj hi).1 (by omega)

theorem exec_sendRequest (c : JsonRpcClient StreamTransport) (method : Str) (params : Json) :
    (sendRequest T StreamTransport.transport method params).exec c =
      match T.dump (requestJson c.next_id method params) with
      | .ok payload => (.ok c.next_id,
          { next_id := c.next_id + 1
            transport := { c.transport with sent := c.transport.sent ++ [payload] } })
      | .error e => (.error e, { c with next_id := c.next_id + 1 }) := by
  unfold sendRequest
  simp only [Prog.exec_bind, Prog.exec_step, Prog.exec_ofExcept]
  rcases T.dump (requestJson c.next_id method params) with e | payload <;> rfl

theorem exec_receiveAnswer (c : JsonRpcClient StreamTransport) :
    (receiveAnswer T StreamTransport.transport).exec c =
      (readAnswer T (c.transport.scripted.headD []),
        { c with transport := { c.transport with scripted := c.transport.scripted.tail } }) := by
  unfold receiveAnswer
  simp only [Prog.exec_bind, Prog.exec_of, Prog.exec_ofExcept]
  rfl

/-- What a step does: it sends for a call that has not sent, or takes the first message for one that
waits. -/
theorem step_cases (h : s.step T request a = some s') :
    (∃ i c, a = .send i ∧ s.calls i = .idle
      ∧ (c = .waiting s.client.next_id ∨ ∃ e, c = .unsent e)
      ∧ s'.calls = Function.update s.calls i c
      ∧ s'.client.next_id = s.client.next_id + 1
      ∧ s'.client.transport.scripted = s.client.transport.scripted)
    ∨ ∃ i id, a = .receive i ∧ s.calls i = .waiting id
      ∧ s'.calls = Function.update s.calls i (.ended id (s.client.transport.scripted.headD [])
          (readAnswer T (s.client.transport.scripted.headD [])))
      ∧ s'.client.next_id = s.client.next_id
      ∧ s'.client.transport.scripted = s.client.transport.scripted.tail := by
  cases a with
  | send i =>
    simp only [step] at h
    split at h
    · next hi =>
      rw [exec_sendRequest] at h
      obtain rfl := Option.some.inj h
      refine .inl ⟨i, _, rfl, hi, ?_, rfl, ?_⟩
      · rcases T.dump (requestJson s.client.next_id (request i).1 (request i).2) with e | payload
        · exact .inr ⟨e, rfl⟩
        · exact .inl rfl
      · rcases T.dump (requestJson s.client.next_id (request i).1 (request i).2) with e | payload
        · exact ⟨rfl, rfl⟩
        · exact ⟨rfl, rfl⟩
    · cases h
  | receive i =>
    simp only [step] at h
    split at h
    · next id hi =>
      rw [exec_receiveAnswer] at h
      obtain rfl := Option.some.inj h
      exact .inr ⟨i, id, rfl, hi, rfl, rfl, rfl⟩
    · cases h

/-- The state of the calls after a schedule: ids go up in the order of the sends, messages are taken
in the order of the receives. -/
structure Follows (T : JsonText) (stream : List Str) (σ : List RpcStep) (s : RpcState) : Prop where
  next_id : s.client.next_id = 1 + (sends σ).length
  scripted : s.client.transport.scripted = stream.drop (receives σ).length
  idle : ∀ i, s.calls i = .idle → i ∉ sends σ
  sent : ∀ i id, (s.calls i).sentId = some id → i ∈ sends σ ∧ id = idOf σ i
  ended : ∀ i id raw outcome, s.calls i = .ended id raw outcome →
    outcome = readAnswer T raw ∧ ∃ k, (receives σ)[k]? = some i ∧ raw = stream.getD k []
  received : ∀ k i, (receives σ)[k]? = some i →
    ∃ outcome, s.calls i = .ended (idOf σ i) (stream.getD k []) outcome

theorem follows_start : Follows T stream [] (start stream) where
  next_id := rfl
  scripted := rfl
  idle := fun _ _ => List.not_mem_nil
  sent := fun _ _ h => by cases h
  ended := fun _ _ _ _ h => by cases h
  received := fun _ _ h => by cases h

theorem follows_send {c : CallState} (hs : Follows T stream σ s) (hidle : s.calls i = .idle)
    (hc : c = .waiting s.client.next_id ∨ ∃ e, c = .unsent e)
    (hcalls : s'.calls = Function.update s.calls i c)
    (hnext : s'.client.next_id = s.client.next_id + 1)
    (hscripted : s'.client.transport.scripted = s.client.transport.scripted) :
    Follows T stream (σ ++ [.send i]) s' := by
  have hnew : i ∉ sends σ := hs.idle i hidle
  have hsends : sends (σ ++ [.send i]) = sends σ ++ [i] := sends_snoc σ _
  have hreceives : receives (σ ++ [.send i]) = receives σ := by
    rw [receives_snoc]
    exact List.append_nil _
  have hid : idOf (σ ++ [.send i]) i = s.client.next_id := by
    rw [idOf, hsends, List.idxOf_append_of_notMem hnew, hs.next_id]
    simp
  have hother : ∀ j, j ≠ i → s'.calls j = s.calls j := fun j hj => by
    rw [hcalls, Function.update_of_ne hj]
  have hself : s'.calls i = c := by rw [hcalls, Function.update_self]
  refine ⟨?_, ?_, fun j hj => ?_, fun j id' hj => ?_, fun j id' raw outcome hj => ?_,
    fun k j hj => ?_⟩
  · rw [hnext, hs.next_id, hsends, List.length_append, List.length_singleton]
    push_cast
    ring
  · rw [hscripted, hs.scripted, hreceives]
  · rcases eq_or_ne j i with rfl | hji
    · rw [hself] at hj
      rcases hc with rfl | ⟨e, rfl⟩ <;> cases hj
    · rw [hsends]
      rw [hother j hji] at hj
      simp [hs.idle j hj, hji]
  · rcases eq_or_ne j i with rfl | hji
    · rw [hself] at hj
      refine ⟨by simp [hsends], ?_⟩
      rcases hc with rfl | ⟨e, rfl⟩
      · rw [hid]
        exact (Option.some.inj hj).symm
      · cases hj
    · rw [hother j hji] at hj
      obtain ⟨hmem, rfl⟩ := hs.sent j id' hj
      exact ⟨by simp [hsends, hmem], (idOf_snoc hmem _).symm⟩
  · rw [hreceives]
    rcases eq_or_ne j i with rfl | hji
    · rw [hself] at hj
      rcases hc with rfl | ⟨e, rfl⟩ <;> cases hj
    · rw [hother j hji] at hj
      exact hs.ended j id' raw outcome hj
  · rw [hreceives] at hj
    obtain ⟨outcome, hended⟩ := hs.received k j hj
    have hmem := (hs.sent j (idOf σ j) (by rw [hended]; rfl)).1
    have hji : j ≠ i := fun h => hnew (h ▸ hmem)
    exact ⟨outcome, by rw [hother j hji, idOf_snoc hmem, hended]⟩

theorem follows_receive (hs : Follows T stream σ s) (hwaiting : s.calls i = .waiting id)
    (hcalls : s'.calls = Function.update s.calls i
      (.ended id (s.client.transport.scripted.headD [])
        (readAnswer T (s.client.transport.scripted.headD []))))
    (hnext : s'.client.next_id = s.client.next_id)
    (hscripted : s'.client.transport.scripted = s.client.transport.scripted.tail) :
    Follows T stream (σ ++ [.receive i]) s' := by
  obtain ⟨hmem, rfl⟩ := hs.sent i id (by rw [hwaiting]; rfl)
  have hsends : sends (σ ++ [.receive i]) = sends σ := by
    rw [sends_snoc]
    exact List.append_nil _
  have hreceives : receives (σ ++ [.receive i]) = receives σ ++ [i] := receives_snoc σ _
  have hid : ∀ j, idOf (σ ++ [.receive i]) j = idOf σ j := fun j => by rw [idOf, idOf, hsends]
  have hraw : s.client.transport.scripted.headD [] = stream.getD (receives σ).length [] := by
    rw [hs.scripted, List.headD_eq_head?_getD, List.head?_drop, List.getD_eq_getElem?_getD]
  have hother : ∀ j, j ≠ i → s'.calls j = s.calls j := fun j hj => by
    rw [hcalls, Function.update_of_ne hj]
  have hself : s'.calls i = .ended (idOf σ i) (stream.getD (receives σ).length [])
      (readAnswer T (stream.getD (receives σ).length [])) := by
    rw [hcalls, Function.update_self, hraw]
  refine ⟨?_, ?_, fun j hj => ?_, fun j id' hj => ?_, fun j id' raw outcome hj => ?_,
    fun k j hj => ?_⟩
  · rw [hnext, hs.next_id, hsends]
  · rw [hscripted, hs.scripted, hreceives, List.tail_drop, List.length_append,
      List.length_singleton]
  · rcases eq_or_ne j i with rfl | hji
    · rw [hself] at hj
      cases hj
    · rw [hother j hji] at hj
      rw [hsends]
      exact hs.idle j hj
  · rw [hsends, hid]
    rcases eq_or_ne j i with rfl | hji
    · rw [hself] at hj
      exact ⟨hmem, (Option.some.inj hj).symm⟩
    · rw [hother j hji] at hj
      exact hs.sent j id' hj
  · rw [hreceives]
    rcases eq_or_ne j i with rfl | hji
    · rw [hself] at hj
      cases hj
      exact ⟨rfl, (receives σ).length, by simp, rfl⟩
    · rw [hother j hji] at hj
      obtain ⟨hout, k, hk, hraw⟩ := hs.ended j id' raw outcome hj
      exact ⟨hout, k, by rw [List.getElem?_append_left (List.getElem?_eq_some_iff.1 hk).1, hk],
        hraw⟩
  · rw [hid]
    rw [hreceives] at hj
    rcases lt_or_ge k (receives σ).length with hk | hk
    · rw [List.getElem?_append_left hk] at hj
      obtain ⟨outcome, hended⟩ := hs.received k j hj
      have hji : j ≠ i := by
        rintro rfl
        rw [hwaiting] at hended
        cases hended
      exact ⟨outcome, by rw [hother j hji, hended]⟩
    · obtain ⟨rfl, rfl⟩ : k = (receives σ).length ∧ j = i := by
        rw [List.getElem?_append_right hk] at hj
        obtain ⟨hlt, hji⟩ := List.getElem?_eq_some_iff.1 hj
        rw [List.length_singleton] at hlt
        exact ⟨by omega, by simpa using hji.symm⟩
      exact ⟨_, hself⟩

theorem follows_step (hs : Follows T stream σ s) (h : s.step T request a = some s') :
    Follows T stream (σ ++ [a]) s' := by
  obtain ⟨i, c, rfl, hidle, hc, hcalls, hnext, hscripted⟩
    | ⟨i, id, rfl, hwaiting, hcalls, hnext, hscripted⟩ := step_cases h
  · exact follows_send hs hidle hc hcalls hnext hscripted
  · exact follows_receive hs hwaiting hcalls hnext hscripted

theorem follows_steps :
    ∀ {σ : List RpcStep} {s : RpcState}, (start stream).steps T request σ = some s →
      Follows T stream σ s := by
  intro σ
  induction σ using List.reverseRecOn with
  | nil =>
    intro s h
    cases h
    exact follows_start
  | append_singleton σ a ih =>
    intro s h
    rw [steps_snoc] at h
    obtain ⟨s₀, hs₀, h⟩ := Option.bind_eq_some_iff.1 h
    exact follows_step (ih hs₀) h

theorem isResponse_iff :
    isResponse T id raw ↔ raw ≠ [] ∧ ∃ resp, T.parse raw = some resp ∧ respondsTo id resp
      ∧ ((errorOf resp).isSome ∨ resp.contains "result") := by
  unfold isResponse
  rcases T.parse raw with _ | resp <;> simp

theorem isResponse_inj {id' : ℤ} (h : isResponse T id raw) (h' : isResponse T id' raw) :
    id = id' := by
  obtain ⟨-, resp, hparse, h, -⟩ := isResponse_iff.1 h
  obtain ⟨-, resp', hparse', h', -⟩ := isResponse_iff.1 h'
  obtain rfl := Option.some.inj (hparse.symm.trans hparse')
  simp only [respondsTo, Bool.and_eq_true, beq_iff_eq] at h h'
  exact Option.some.inj (h.2.symm.trans h'.2)

theorem value_of_field? {resp result dflt : Json} {key : Str} (h : resp.field? key = some result) :
    resp.value .ok key dflt = .ok result := by
  cases resp with
  | object fields =>
    have hlookup : fields.lookup key = some result := h
    simp only [Json.value, hlookup]
  | _ => cases h

/-- What the client makes of a response is what the response says. -/
theorem tells_readResponse {resp : Json} (h : (errorOf resp).isSome ∨ resp.contains "result") :
    Tells T resp (readResponse T resp) := by
  have hresult : errorOf resp = none →
      ∃ result, resp.field? "result" = some result
        ∧ resp.value .ok "result" (.object []) = .ok result := fun hnone => by
    rw [hnone] at h
    obtain ⟨result, hfield⟩ := Option.isSome_iff_exists.1 (h.resolve_left (by simp))
    exact ⟨result, hfield, value_of_field? hfield⟩
  unfold Tells readResponse
  rcases hfield : resp.field? "error" with _ | error
  · have hnone : errorOf resp = none := by rw [errorOf, hfield]; rfl
    rw [hnone]
    exact hresult hnone
  · dsimp only
    by_cases hnull : error = .null
    · have hnone : errorOf resp = none := by simp [errorOf, hfield, hnull]
      rw [hnone, if_pos hnull]
      exact hresult hnone
    · have hsome : errorOf resp = some error := by simp [errorOf, hfield, hnull]
      rw [hsome, if_neg hnull]
      rcases hdump : T.dump error with e | what
      · exact ⟨e, rfl, fun what hwhat => by rw [hdump] at hwhat; cases hwhat⟩
      · refine ⟨.user what, rfl, fun what' hwhat => ?_⟩
        rw [hdump] at hwhat
        cases hwhat
        rfl

theorem readAnswer_of_isResponse (h : isResponse T id raw) :
    ∃ resp, T.parse raw = some resp ∧ Tells T resp (readAnswer T raw) := by
  obtain ⟨hne, resp, hparse, -, hsays⟩ := isResponse_iff.1 h
  refine ⟨resp, hparse, ?_⟩
  rw [readAnswer, if_neg (by simpa using hne), hparse]
  exact tells_readResponse hsays

/-- Every call gets its own answer exactly if the messages of the stream answer the calls in the
order in which they receive. -/
theorem own_answers_iff (h : (start stream).steps T request σ = some s) :
    s.OwnAnswers T ↔
      ∀ k i : ℕ, (receives σ)[k]? = some i →
        ∃ raw, stream[k]? = some raw ∧ isResponse T (idOf σ i) raw := by
  have hs := follows_steps h
  constructor
  · intro hown k i hk
    obtain ⟨outcome, hended⟩ := hs.received k i hk
    have hresponse := (hown.own i _ _ _ hended).1
    rw [List.getD_eq_getElem?_getD] at hresponse
    rcases hraw : stream[k]? with _ | raw
    · rw [hraw] at hresponse
      exact ((isResponse_iff.1 hresponse).1 rfl).elim
    · rw [hraw] at hresponse
      exact ⟨raw, rfl, hresponse⟩
  · intro horder
    have hresponse : ∀ i id raw outcome, s.calls i = .ended id raw outcome →
        isResponse T id raw := fun i id raw outcome hended => by
      obtain ⟨-, k, hk, rfl⟩ := hs.ended i id raw outcome hended
      obtain ⟨-, rfl⟩ := hs.sent i id (by rw [hended]; rfl)
      obtain ⟨raw, hraw, hresponse⟩ := horder k i hk
      rw [List.getD_eq_getElem?_getD, hraw]
      exact hresponse
    constructor
    · intro i id raw outcome hended
      have hi := hresponse i id raw outcome hended
      rw [(hs.ended i id raw outcome hended).1]
      exact ⟨hi, readAnswer_of_isResponse hi⟩
    · intro i id raw outcome hended j id' hj hraw
      obtain ⟨hmem, hid'⟩ := hs.sent j id' hj
      obtain ⟨-, hid⟩ := hs.sent i id (by rw [hended]; rfl)
      refine idOf_inj hmem ?_
      rw [← hid', ← hid, isResponse_inj hraw (hresponse i id raw outcome hended)]

/-- Two pings, a notification and the two answers. -/
def pings : JsonText := .ofTable
  [("ping 1", requestJson 1 "ping" .null), ("ping 2", requestJson 2 "ping" .null),
    ("note", .ofFields [("method", .string "progress")]),
    ("pong 1", .ofFields [("id", .number_unsigned 1), ("result", .string "one")]),
    ("pong 2", .ofFields [("id", .number_unsigned 2), ("result", .string "two")])]

def ping (_ : ℕ) : Str × Json := ("ping", .null)

theorem own_answers_pings :
    ∃ s, (start [lit "pong 2", lit "pong 1"]).steps pings ping
        [.send 0, .send 1, .receive 1, .receive 0] = some s ∧ s.OwnAnswers pings := by
  obtain ⟨s, hs⟩ := Option.isSome_iff_exists.1
    (show ((start [lit "pong 2", lit "pong 1"]).steps pings ping
      [.send 0, .send 1, .receive 1, .receive 0]).isSome by decide +kernel)
  refine ⟨s, hs, (own_answers_iff hs).2 fun k i hk => ?_⟩
  match k, hk with
  | 0, hk =>
    cases hk
    exact ⟨_, rfl, by decide +kernel⟩
  | 1, hk =>
    cases hk
    exact ⟨_, rfl, by decide +kernel⟩

/-- A notification that comes in before the answer is taken for it. -/
theorem not_own_answers :
    ∃ s, (start [lit "note", lit "pong 1"]).steps pings ping [.send 0, .receive 0] = some s
      ∧ (∀ i ∈ sends [.send 0, .receive 0],
          [lit "note", lit "pong 1"].countP (isResponse pings (idOf [.send 0, .receive 0] i)) = 1)
      ∧ ¬ s.OwnAnswers pings := by
  obtain ⟨s, hs⟩ := Option.isSome_iff_exists.1
    (show ((start [lit "note", lit "pong 1"]).steps pings ping [.send 0, .receive 0]).isSome by
      decide +kernel)
  refine ⟨s, hs, by decide +kernel, fun h => ?_⟩
  obtain ⟨outcome, hended⟩ := (follows_steps hs).received 0 0 rfl
  exact absurd (h.own 0 _ _ _ hended).1 (by decide +kernel)

end RpcState

end Praxis
