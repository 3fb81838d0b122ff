import Praxis.SseSession

/-!
# A session is taken up once

The first good reply that names a session decides: every request after it carries that name and none
before it does, whatever later replies say, and the session is deleted in the end (`session_once`).
-/

namespace Praxis

namespace SseSession

variable {H : Type} (server : HttpRequest → H → Option HttpReply × H)

/-- A message that has been sent, the reply to it and what `send` has returned. -/
structure Exchange where
  request : HttpRequest
  reply : Option HttpReply
  outcome : Except Exn Unit

/-- Messages sent one after the other, whether `send` returns or throws. -/
def exchanges (server : HttpRequest → H → Option HttpReply × H) :
    List Str → SseSession → H → List Exchange × SseSession × H
  | [], t, h => ([], t, h)
  | payload :: payloads, t, h =>
    let sent := send server payload t h
    let rest := exchanges server payloads sent.2.1 sent.2.2.2
    ({ request := sent.2.2.1, reply := (server sent.2.2.1 h).1, outcome := sent.1 } :: rest.1,
      rest.2)

def Good (reply : HttpReply) : Prop := 200 ≤ reply.status ∧ reply.status < 300

instance (reply : HttpReply) : Decidable (Good reply) :=
  inferInstanceAs (Decidable (200 ≤ reply.status ∧ reply.status < 300))

/-- The session that a reply names, if it is a good one. -/
def offered (ex : Exchange) : Option Str :=
  ex.reply.bind fun reply =>
    if Good reply then
      ((reply.find "Mcp-Session-Id").or (reply.find "mcp-session-id")).filter fun id => !id.isEmpty
    else none

/-- The first session that is named, or none. -/
def given (exs : List Exchange) : Str := (exs.findSome? offered).getD []

/-- The session in which a transport is after some more messages. -/
def current (t : SseSession) (exs : List Exchange) : Str :=
  if t.session_id.isEmpty then given exs else t.session_id

theorem current_nil (t : SseSession) : current t [] = t.session_id := by
  unfold current
  split_ifs with hempty
  · exact (List.isEmpty_iff.1 hempty).symm
  · rfl

theorem send_eq (payload : Str) (t : SseSession) (h : H) :
    let sent := send server payload t h
    let reply := (server (.post (url t.post_endpoint t.session_id) payload) h).1
    sent.2.2.1 = .post (url t.post_endpoint t.session_id) payload
      ∧ (sent.1 = .ok () ↔ ∃ r, reply = some r ∧ Good r)
      ∧ sent.2.1 = match reply with
        | none => t
        | some r => if Good r then t.adopt r else t := by
  unfold send
  dsimp only
  rcases server (.post (url t.post_endpoint t.session_id) payload) h with ⟨_ | reply, h'⟩
  · exact ⟨rfl, by simp, rfl⟩
  · dsimp only
    split_ifs with hbad hgood hgood
    · exact absurd hbad (by unfold Good at hgood; omega)
    · exact ⟨rfl, by simp [hgood], rfl⟩
    · exact ⟨rfl, by simp [hgood], rfl⟩
    · exact absurd ⟨by omega, by omega⟩ hgood

theorem adopt_eq (t : SseSession) (reply : HttpReply) :
    (t.adopt reply).post_endpoint = t.post_endpoint
      ∧ (t.adopt reply).session_id = if t.session_id.isEmpty then
        (((reply.find "Mcp-Session-Id").or (reply.find "mcp-session-id")).filter
          fun id => !id.isEmpty).getD [] else t.session_id := by
  unfold adopt
  split_ifs with hempty
  · rcases (reply.find "Mcp-Session-Id").or (reply.find "mcp-session-id") with _ | id
    · exact ⟨rfl, List.isEmpty_iff.1 hempty⟩
    · exact ⟨rfl, by cases id <;> rfl⟩
  · exact ⟨rfl, rfl⟩

/-- One message more, at the front. -/
theorem current_cons (t t' : SseSession) (ex : Exchange) (exs : List Exchange)
    (h : t'.session_id = if t.session_id.isEmpty then (offered ex).getD [] else t.session_id) :
    current t' exs = current t (ex :: exs) := by
  unfold current given
  rw [h, List.findSome?_cons]
  cases hempty : t.session_id.isEmpty
  · simp [hempty]
  · rcases hoffered : offered ex with _ | id
    · simp
    · have hid : id.isEmpty = false := by
        unfold offered at hoffered
        obtain ⟨reply, -, hreply⟩ := Option.bind_eq_some_iff.1 hoffered
        split_ifs at hreply
        simpa using (Option.filter_eq_some_iff.1 hreply).2
      simp [hid]

theorem current_send (payload : Str) (t : SseSession) (h : H) (exs : List Exchange) :
    let sent := send server payload t h
    let ex : Exchange :=
      { request := sent.2.2.1, reply := (server sent.2.2.1 h).1, outcome := sent.1 }
    sent.2.1.post_endpoint = t.post_endpoint ∧ current sent.2.1 exs = current t (ex :: exs) := by
  intro sent ex
  obtain ⟨hrequest, -, hnext⟩ := send_eq server payload t h
  have hreply : ex.reply = (server (.post (url t.post_endpoint t.session_id) payload) h).1 := by
    show (server sent.2.2.1 h).1 = _
    rw [hrequest]
  have hkeep : sent.2.1 = t → (offered ex).getD [] = [] →
      sent.2.1.post_endpoint = t.post_endpoint ∧ current sent.2.1 exs = current t (ex :: exs) := by
    intro hsame hnone
    refine ⟨by rw [hsame], current_cons t _ ex exs ?_⟩
    rw [hsame, hnone]
    split_ifs with hempty
    · exact List.isEmpty_iff.1 hempty
    · rfl
  rcases hserver : (server (.post (url t.post_endpoint t.session_id) payload) h).1 with _ | reply
  · rw [hserver] at hreply hnext
    exact hkeep hnext (by rw [offered, hreply]; rfl)
  · rw [hserver] at hreply hnext
    dsimp only at hnext
    split_ifs at hnext with hgood
    · obtain ⟨hendpoint, hid⟩ := adopt_eq t reply
      refine ⟨(congrArg post_endpoint hnext).trans hendpoint, current_cons t _ ex exs ?_⟩
      rw [show sent.2.1 = t.adopt reply from hnext, hid, offered, hreply, Option.bind_some,
        if_pos hgood]
    · refine hkeep hnext ?_
      rw [offered, hreply, Option.bind_some, if_neg hgood]
      rfl

theorem exchanges_eq : ∀ (payloads : List Str) (t : SseSession) (h : H),
    let done := exchanges server payloads t h
    done.2.1.post_endpoint = t.post_endpoint
      ∧ current done.2.1 [] = current t done.1
      ∧ done.1.length = payloads.length
      ∧ ∀ (i : ℕ) (ex : Exchange), done.1[i]? = some ex →
        (∃ payload, payloads[i]? = some payload
          ∧ ex.request = .post (url t.post_endpoint (current t (done.1.take i))) payload)
        ∧ (ex.outcome = .ok () ↔ ∃ reply, ex.reply = some reply ∧ Good reply)
  | [], t, h => ⟨rfl, rfl, rfl, fun i ex hex => by cases hex⟩
  | payload :: payloads, t, h => by
    intro done
    obtain ⟨hrequest, houtcome, -⟩ := send_eq server payload t h
    have hnext := current_send server payload t h
    obtain ⟨hendpoint, hcurrent, hlength, hall⟩ := exchanges_eq payloads
      (send server payload t h).2.1 (send server payload t h).2.2.2
    refine ⟨hendpoint.trans (hnext []).1, hcurrent.trans (hnext _).2, congrArg (· + 1) hlength, ?_⟩
    rintro (_ | i) ex hex
    · obtain rfl := Option.some.inj hex
      refine ⟨⟨payload, rfl, hrequest.trans ?_⟩, houtcome.trans ?_⟩
      · rw [List.take_zero, current_nil]
      · rw [← hrequest]
    · obtain ⟨⟨payload', hpayload, hrequest'⟩, houtcome'⟩ := hall i ex hex
      refine ⟨⟨payload', hpayload, ?_⟩, houtcome'⟩
      rw [hrequest', (hnext []).1, (hnext _).2]
      rfl

/-- The messages of a transport that `attach_sse_url` makes go to the path of the URL until a good
reply names a session, and then to the session under it, which no later reply changes; the transport
deletes the session it has taken up. A message has been delivered exactly if its reply is good. -/
theorem session_once (server : HttpRequest → H → Option HttpReply × H) (parsed : ParsedUrl)
    (payloads : List Str) (h : H) :
    let done := exchanges server payloads (ofUrl parsed) h
    (ofUrl parsed).start_event_thread = .get parsed.path
      ∧ done.1.length = payloads.length
      ∧ (∀ (i : ℕ) (ex : Exchange), done.1[i]? = some ex →
        (∃ payload, payloads[i]? = some payload
          ∧ ex.request = .post (url parsed.path (given (done.1.take i))) payload)
        ∧ (ex.outcome = .ok () ↔ ∃ reply, ex.reply = some reply ∧ Good reply))
      ∧ done.2.1.close = if given done.1 = [] then none
        else some (.delete (url parsed.path (given done.1))) := by
  intro done
  obtain ⟨hendpoint, hcurrent, hlength, hall⟩ := exchanges_eq server payloads
    (ofUrl parsed) h
  refine ⟨rfl, hlength, hall, ?_⟩
  have hid : done.2.1.session_id = given done.1 := (current_nil _).symm.trans hcurrent
  unfold close
  rw [hendpoint, hid]
  rcases given done.1 with _ | ⟨c, id⟩ <;> rfl

end SseSession

end Praxis
