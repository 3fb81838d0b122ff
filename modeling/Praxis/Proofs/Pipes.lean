import Praxis.Proofs.Stdio

/-!
# JSON-RPC over the pipes

As long as every `write` takes something and the `i`-th `read` completes the `i`-th line, a client
over the pipes cannot tell them from a stream of messages (`session_over_pipes`).
-/

namespace Praxis

open Effect (Prog Keeps Same Sim SimIf)
open Text (unlines unlines_append unlines_cons)

/-- What the owner of a client may do with it. -/
inductive RpcOp
  | call (method : Str) (params : Json)
  | notify (method : Str) (params : Json)
  | pump_once

namespace JsonRpcClient

variable {X : Type} {T : JsonText} {handlers : AList fun _ : Str => Handler}

def perform (T : JsonText) (P : JsonRpcTransport X) (handlers : AList fun _ : Str => Handler) :
    RpcOp → Prog Exn (JsonRpcClient X) Json
  | .call method params => call T P method params
  | .notify method params => do
    notify T P method params
    pure .null
  | .pump_once => do
    pump_once T P handlers
    pure .null

/-- One operation after the other; what one throws does not keep the owner from the next. -/
def session (T : JsonText) (P : JsonRpcTransport X) (handlers : AList fun _ : Str => Handler) :
    List RpcOp → JsonRpcClient X → List (Except Exn Json) × JsonRpcClient X
  | [], c => ([], c)
  | op :: ops, c =>
    let done := (perform T P handlers op).exec c
    let rest := session T P handlers ops done.2
    (done.1 :: rest.1, rest.2)

def sending (P : JsonRpcTransport X) (payload : Str) : Prog Exn (JsonRpcClient X) Unit :=
  Prog.of fun c =>
    let sent := P.send payload c.transport
    (sent.1, { c with transport := sent.2 })

def receiving (P : JsonRpcTransport X) : Prog Exn (JsonRpcClient X) Str :=
  Prog.of fun c =>
    let received := P.receive c.transport
    (received.1, { c with transport := received.2 })

section Keeps

variable {P : JsonRpcTransport X} {r : JsonRpcClient X → JsonRpcClient X → Prop}

/-- What sending, receiving and counting keep, every operation keeps. -/
theorem keeps_perform (hrefl : ∀ c, r c c) (htrans : ∀ c c' c'', r c c' → r c' c'' → r c c'')
    (hcount : ∀ (c : JsonRpcClient X) (id : ℤ), r c { c with next_id := id })
    (hsend : ∀ payload, Keeps r (sending P payload)) (hreceive : Keeps r (receiving P))
    (op : RpcOp) : Keeps r (perform T P handlers op) := by
  cases op with
  | call method params =>
    refine .bind htrans (.bind htrans (fun c => hcount c _) fun id => ?_) fun _ => ?_
    · exact .bind htrans (.ofExcept hrefl _) fun payload =>
        .bind htrans (hsend payload) fun _ => .pure hrefl _
    · exact .bind htrans hreceive fun raw => .ofExcept hrefl _
  | notify method params =>
    exact .bind htrans (.bind htrans (.ofExcept hrefl _) hsend) fun _ => .pure hrefl _
  | pump_once =>
    refine .bind htrans (.bind htrans hreceive fun raw => ?_) fun _ => .pure hrefl _
    split_ifs
    · exact .pure hrefl _
    refine .bind htrans (.ofExcept hrefl _) fun req => ?_
    refine .bind htrans (.ofExcept hrefl _) fun method => ?_
    rcases handlers.lookup method with _ | handler
    · exact .pure hrefl _
    refine .bind htrans (.ofExcept hrefl _) fun params => ?_
    refine .bind htrans (.ofExcept hrefl _) fun result => ?_
    dsimp only
    split
    · exact .pure hrefl _
    · exact .pure hrefl _
    · exact .bind htrans (.ofExcept hrefl _) hsend

end Keeps

variable {Y α β : Type} {C : JsonRpcClient Y → Prop} {R : JsonRpcClient X → JsonRpcClient Y → Prop}
  {P : JsonRpcTransport X} {Q : JsonRpcTransport Y}

/-- The same in both: the value, or the exception, and the relation. -/
abbrev Together (R : JsonRpcClient X → JsonRpcClient Y → Prop)
    (x : Prog Exn (JsonRpcClient X) α) (y : Prog Exn (JsonRpcClient Y) α) : Prop :=
  Sim R x y (Same (fun _ => True) R) R

/-- The same unless `C` is lost on the way. -/
abbrev TogetherIf (C : JsonRpcClient Y → Prop) (R : JsonRpcClient X → JsonRpcClient Y → Prop)
    (x : Prog Exn (JsonRpcClient X) α) (y : Prog Exn (JsonRpcClient Y) α) : Prop :=
  SimIf C R x y (Same (fun _ => True) R) R

/-- Clients in the relation number alike, and their transports send and receive alike unless `C` is
lost on the way. It is never restored. -/
structure Alike (C : JsonRpcClient Y → Prop) (R : JsonRpcClient X → JsonRpcClient Y → Prop)
    (P : JsonRpcTransport X) (Q : JsonRpcTransport Y) : Prop where
  next_id : ∀ c d, R c d → d.next_id = c.next_id
  count : ∀ c d id, R c d → R { c with next_id := id } { d with next_id := id }
  send : ∀ payload, TogetherIf C R (sending P payload) (sending Q payload)
  receive : Together R (receiving P) (receiving Q)
  back_count : ∀ (d : JsonRpcClient Y) (id : ℤ), C { d with next_id := id } → C d
  back_send : ∀ payload, Keeps (fun d d' => C d' → C d) (sending Q payload)
  back_receive : Keeps (fun d d' => C d' → C d) (receiving Q)

theorem together_ofExcept {e : Except Exn α} :
    Together R (Prog.ofExcept e) (Prog.ofExcept e) :=
  Sim.ofExcept (fun _ _ h => h) fun _ _ _ _ h => ⟨rfl, trivial, h⟩

theorem together_pure (a : α) : Together R (pure a) (pure a) :=
  Sim.pure fun _ _ h => ⟨rfl, trivial, h⟩

theorem TogetherIf.bind {x : Prog Exn (JsonRpcClient X) α} {y : Prog Exn (JsonRpcClient Y) α}
    {f : α → Prog Exn (JsonRpcClient X) β} {g : α → Prog Exn (JsonRpcClient Y) β}
    (hx : TogetherIf C R x y) (hback : ∀ a, Keeps (fun d d' => C d' → C d) (g a))
    (hf : ∀ a, TogetherIf C R (f a) (g a)) : TogetherIf C R (x >>= f) (y >>= g) :=
  SimIf.bind hx hback fun a b s t hst => by
    obtain ⟨rfl, -, hst⟩ := hst
    exact hf a s t hst

theorem Together.bindIf {x : Prog Exn (JsonRpcClient X) α} {y : Prog Exn (JsonRpcClient Y) α}
    {f : α → Prog Exn (JsonRpcClient X) β} {g : α → Prog Exn (JsonRpcClient Y) β}
    (hx : Together R x y) (hf : ∀ a, TogetherIf C R (f a) (g a)) :
    TogetherIf C R (x >>= f) (y >>= g) := Sim.bindSameIf hx fun a _ => hf a

namespace Alike

variable (h : Alike C R P Q)

include h in
/-- Counting, writing what can be written and sending it. -/
theorem sendRequest (method : Str) (params : Json) :
    TogetherIf C R (JsonRpcClient.sendRequest T P method params)
      (JsonRpcClient.sendRequest T Q method params) := by
  have hcount : Together R
      (Prog.step fun c => (c.next_id, { c with next_id := c.next_id + 1 }))
      (Prog.step fun d => (d.next_id, { d with next_id := d.next_id + 1 })) :=
    Sim.step fun c d hcd => by
      rw [h.next_id c d hcd]
      exact ⟨rfl, trivial, h.count c d _ hcd⟩
  refine hcount.bindIf fun id => together_ofExcept.bindIf fun payload => ?_
  exact (h.send payload).bind (fun _ => .pure (fun _ hd => hd) _) fun _ => (together_pure id).toIf

include h in
theorem perform (op : RpcOp) :
    TogetherIf C R (JsonRpcClient.perform T P handlers op)
      (JsonRpcClient.perform T Q handlers op) := by
  have hnull : TogetherIf C R (pure .null) (pure .null : Prog Exn (JsonRpcClient Y) Json) :=
    (together_pure _).toIf
  have hback : ∀ _ : Unit, Keeps (fun d d' => C d' → C d)
      (pure .null : Prog Exn (JsonRpcClient Y) Json) := fun _ => .pure (fun _ hd => hd) _
  cases op with
  | call method params =>
    refine (h.sendRequest method params).bind (fun _ => ?_) fun _ => ?_
    · exact .bind (fun _ _ _ h h' hd => h (h' hd)) h.back_receive fun _ =>
        .ofExcept (fun _ hd => hd) _
    · exact h.receive.bindIf fun raw => together_ofExcept.toIf
  | notify method params =>
    exact .bind (together_ofExcept.bindIf h.send) hback fun _ => hnull
  | pump_once =>
    refine .bind (h.receive.bindIf fun raw => ?_) hback fun _ => hnull
    split_ifs
    · exact (together_pure _).toIf
    refine together_ofExcept.bindIf fun req => together_ofExcept.bindIf fun method => ?_
    rcases handlers.lookup method with _ | handler
    · exact (together_pure _).toIf
    refine together_ofExcept.bindIf fun params => together_ofExcept.bindIf fun result => ?_
    dsimp only
    split
    · exact (together_pure _).toIf
    · exact (together_pure _).toIf
    · exact together_ofExcept.bindIf h.send

include h in
theorem back_session : ∀ (ops : List RpcOp) (d : JsonRpcClient Y),
    C (JsonRpcClient.session T Q handlers ops d).2 → C d
  | [], _, hC => hC
  | op :: ops, d, hC =>
    keeps_perform (fun _ hd => hd) (fun _ _ _ h h' hd => h (h' hd)) h.back_count h.back_send
      h.back_receive op d (back_session ops _ hC)

include h in
/-- A session is the same over both transports, unless `C` is lost on the way. -/
theorem session : ∀ (ops : List RpcOp) (c : JsonRpcClient X) (d : JsonRpcClient Y), R c d →
    C (JsonRpcClient.session T Q handlers ops d).2 →
    (JsonRpcClient.session T P handlers ops c).1 = (JsonRpcClient.session T Q handlers ops d).1
      ∧ R (JsonRpcClient.session T P handlers ops c).2
        (JsonRpcClient.session T Q handlers ops d).2
  | [], _, _, hcd, _ => ⟨rfl, hcd⟩
  | op :: ops, c, d, hcd, hC => by
    obtain ⟨hdone, hcd'⟩ := ((h.perform op c d hcd (h.back_session ops _ hC)).mono
      fun _ _ _ _ hsame => ⟨hsame.1, hsame.2.2⟩).agree
    obtain ⟨hrest, hend⟩ := session ops _ _ hcd' hC
    exact ⟨congrArg₂ _ hdone hrest, hend⟩

end Alike

end JsonRpcClient

/-! ## The pipes -/

/-- All that a kernel takes is in the pipe, what it brings stays. -/
theorem Pipes.writeAll_left : ∀ (p : Str) (pipes : Pipes),
    (pipes.writeAll p).2.takes <:+ pipes.takes ∧ (pipes.writeAll p).2.brings = pipes.brings
  | p, pipes => by
    unfold writeAll
    split_ifs with hp h0
    · exact ⟨List.suffix_refl _, rfl⟩
    · exact ⟨List.tail_suffix _, rfl⟩
    · have hpos := List.length_pos_of_ne_nil hp
      obtain ⟨htakes, hbrings⟩ := writeAll_left (p.drop (pipes.write p).1) (pipes.write p).2
      exact ⟨htakes.trans (List.tail_suffix _), hbrings⟩
termination_by p => p.length
decreasing_by
  rw [List.length_drop]
  omega

/-- If every `write` takes something, they do not fail before they run out. -/
theorem Pipes.writeAll_ok : ∀ (p : Str) (pipes : Pipes), (∀ n ∈ pipes.takes, 0 < n) →
    (pipes.writeAll p).2.takes ≠ [] → (pipes.writeAll p).1 = .ok ()
  | p, pipes, htakes, hleft => by
    unfold writeAll at hleft ⊢
    split_ifs at hleft ⊢ with hp h0
    · rfl
    · have hpos := List.length_pos_of_ne_nil hp
      rcases hlist : pipes.takes with _ | ⟨n, ns⟩
      · refine absurd ?_ hleft
        show pipes.takes.tail = []
        rw [hlist, List.tail_nil]
      · have hn := htakes n (hlist ▸ List.mem_cons_self)
        have hmin : min n p.length = 0 := by
          rw [← h0, write, hlist, List.headD_cons]
        omega
    · have hpos := List.length_pos_of_ne_nil hp
      exact writeAll_ok (p.drop (pipes.write p).1) (pipes.write p).2
        (fun n hn => htakes n (List.mem_of_mem_tail hn)) hleft
termination_by p => p.length
decreasing_by
  rw [List.length_drop]
  omega

namespace PosixStdioTransport

/-- The `i`-th read completes the `i`-th line to come. -/
structure Timely (ls : List Str) (buffer : Str) (chunks : List Str) : Prop where
  no_newline : ∀ l ∈ ls, newline ∉ l
  nonempty : ∀ c ∈ chunks, c ≠ []
  stream : buffer ++ chunks.flatten = unlines newline ls
  enough : ls.length ≤ chunks.length
  complete : ∀ i ≤ ls.length,
    (unlines newline (ls.take i)).length ≤ buffer.length + (chunks.take i).flatten.length

variable {l buffer chunk : Str} {ls chunks : List Str} {takes : List ℕ} {taken : Str}

theorem Timely.eq_nil (h : Timely [] buffer chunks) : buffer = [] ∧ chunks = [] := by
  obtain ⟨hbuffer, hflatten⟩ := List.append_eq_nil_iff.1 h.stream
  refine ⟨hbuffer, List.eq_nil_iff_forall_not_mem.2 fun c hc => h.nonempty c hc ?_⟩
  exact List.flatten_eq_nil_iff.1 hflatten c hc

theorem receive_end :
    receive ⟨[], [], ⟨takes, [], taken⟩⟩ = ([], ⟨[], [], ⟨takes, [], taken⟩⟩) := by
  simp [receive, Pipes.read]

variable (takes taken) in
/-- The next line is received as a whole, and the others remain timely. -/
theorem Timely.receive (h : Timely (l :: ls) buffer chunks) :
    ∃ rest chunks', PosixStdioTransport.receive ⟨buffer, [], ⟨takes, chunks, taken⟩⟩
        = (l, ⟨rest, [], ⟨takes, chunks', taken⟩⟩)
      ∧ Timely ls rest chunks' := by
  obtain ⟨hl, hls⟩ := List.forall_mem_cons.1 h.no_newline
  rcases chunks with _ | ⟨chunk, chunks⟩
  · exact absurd h.enough (by simp)
  obtain ⟨hchunk, hchunks⟩ := List.forall_mem_cons.1 h.nonempty
  have hstream := h.stream
  rw [List.flatten_cons, ← List.append_assoc, unlines_cons] at hstream
  have hfirst := h.complete 1 (by simp)
  rw [List.take_succ_cons, List.take_zero, List.take_succ_cons, List.take_zero,
    List.flatten_singleton, ← List.length_append] at hfirst
  obtain ⟨rest, hrest⟩ : l ++ [newline] <+: buffer ++ chunk := by
    refine List.prefix_of_prefix_length_le ?_ (List.prefix_append _ chunks.flatten)
      (by simpa [unlines] using hfirst)
    rw [hstream]
    exact ⟨unlines newline ls, by rw [List.append_assoc]; rfl⟩
  have hsplit : buffer ++ chunk = l ++ newline :: rest := by
    rw [← hrest, List.append_assoc]
    rfl
  have hlength := congrArg List.length hsplit
  rw [List.length_append, List.length_append, List.length_cons] at hlength
  refine ⟨rest, chunks, receive_line hchunk hl hsplit, hls, hchunks, ?_, ?_, fun i hi => ?_⟩
  · rw [hsplit, List.append_assoc, List.cons_append] at hstream
    exact (List.cons.inj (List.append_cancel_left hstream)).2
  · exact Nat.le_of_succ_le_succ h.enough
  · have hnext := h.complete (i + 1) (Nat.succ_le_succ hi)
    rw [List.take_succ_cons, unlines_cons, List.take_succ_cons, List.flatten_cons,
      List.length_append, List.length_append, List.length_cons] at hnext
    omega

/-- A client of a stream of messages and one of the pipes. -/
structure Piped (c : JsonRpcClient StreamTransport) (d : JsonRpcClient PosixStdioTransport) :
    Prop where
  next_id : d.next_id = c.next_id
  line : d.transport.line = []
  takes : ∀ n ∈ d.transport.pipes.takes, 0 < n
  taken : d.transport.pipes.taken = unlines newline c.transport.sent
  timely : Timely c.transport.scripted d.transport.buffer d.transport.pipes.brings

/-- The kernel would take more. -/
def TakesMore (d : JsonRpcClient PosixStdioTransport) : Prop := d.transport.pipes.takes ≠ []

theorem send_left (payload : Str) (t : PosixStdioTransport) :
    (t.send payload).2.pipes.takes <:+ t.pipes.takes
      ∧ (t.send payload).2.pipes.brings = t.pipes.brings
      ∧ (t.send payload).2.buffer = t.buffer ∧ (t.send payload).2.line = t.line := by
  obtain ⟨htakes, hbrings⟩ := t.pipes.writeAll_left payload
  unfold send
  rcases hwrite : t.pipes.writeAll payload with ⟨e | _, pipes⟩ <;> rw [hwrite] at htakes hbrings
  · exact ⟨htakes, hbrings, rfl, rfl⟩
  · exact ⟨(List.tail_suffix _).trans htakes, hbrings, rfl, rfl⟩

/-- If every `write` takes something and the kernel would take more, a message is in the pipe with
its newline. -/
theorem send_taken {payload : Str} {t : PosixStdioTransport} (htakes : ∀ n ∈ t.pipes.takes, 0 < n)
    (hleft : (t.send payload).2.pipes.takes ≠ []) :
    (t.send payload).1 = .ok ()
      ∧ (t.send payload).2.pipes.taken = t.pipes.taken ++ (payload ++ [newline]) := by
  obtain ⟨hsuffix, -⟩ := t.pipes.writeAll_left payload
  have hok := t.pipes.writeAll_ok payload htakes
  unfold send at hleft ⊢
  obtain ⟨pipes, hwrite, htaken⟩ | ⟨pipes, n, hwrite, -, -⟩ := t.pipes.writeAll_spec payload
  · rw [hwrite] at hleft hsuffix ⊢
    refine ⟨rfl, ?_⟩
    show pipes.taken ++ [newline].take (min (pipes.takes.headD 0) 1) = _
    rcases hlist : pipes.takes with _ | ⟨n, ns⟩
    · refine absurd ?_ hleft
      show pipes.takes.tail = []
      rw [hlist, List.tail_nil]
    · have hn := htakes n (hsuffix.subset (hlist ▸ List.mem_cons_self))
      rw [List.headD_cons, Nat.min_eq_right hn, htaken, List.append_assoc]
      rfl
  · rw [hwrite] at hleft hok
    cases hok hleft

theorem receive_left (t : PosixStdioTransport) : t.receive.2.pipes.takes = t.pipes.takes := by
  unfold receive Pipes.read
  dsimp only
  split_ifs
  · rfl
  · rfl
  · unfold pop_line
    split <;> rfl

theorem exec_sending (payload : Str) (d : JsonRpcClient PosixStdioTransport) :
    (JsonRpcClient.sending transport payload).exec d
      = ((d.transport.send payload).1, { d with transport := (d.transport.send payload).2 }) :=
  rfl

theorem exec_receiving (d : JsonRpcClient PosixStdioTransport) :
    (JsonRpcClient.receiving transport).exec d
      = (.ok d.transport.receive.1, { d with transport := d.transport.receive.2 }) := rfl

open JsonRpcClient in
/-- A client cannot tell the pipes from a stream of messages before the kernel stops taking. -/
theorem alike : Alike TakesMore Piped StreamTransport.transport transport where
  next_id c d h := h.next_id
  count c d id h := ⟨rfl, h.line, h.takes, h.taken, h.timely⟩
  send payload := fun c d h hleft => by
    obtain ⟨hsuffix, hbrings, hbuffer, hline⟩ := send_left payload d.transport
    obtain ⟨hok, htaken⟩ := send_taken h.takes hleft
    rw [exec_sending, hok]
    refine ⟨rfl, trivial, h.next_id, hline.trans h.line, fun n hn => h.takes n (hsuffix.subset hn),
      ?_, ?_⟩
    · show (d.transport.send payload).2.pipes.taken
        = unlines newline (c.transport.sent ++ [payload])
      rw [htaken, h.taken, unlines_append, unlines_cons]
      rfl
    · show Timely c.transport.scripted (d.transport.send payload).2.buffer
        (d.transport.send payload).2.pipes.brings
      rw [hbuffer, hbrings]
      exact h.timely
  receive := fun c d h => by
    obtain ⟨id, ⟨sent, scripted⟩⟩ := c
    obtain ⟨id, ⟨buffer, line, ⟨takes, brings, taken⟩⟩⟩ := d
    obtain ⟨hid, hline, htakes, htaken, htimely⟩ := h
    dsimp only at hid hline htakes htaken htimely
    subst hid hline
    cases scripted with
    | nil =>
      obtain ⟨rfl, rfl⟩ := htimely.eq_nil
      rw [exec_receiving, receive_end]
      exact ⟨rfl, trivial, rfl, rfl, htakes, htaken, htimely⟩
    | cons l ls =>
      obtain ⟨rest, chunks, hreceive, hrest⟩ := htimely.receive takes taken
      rw [exec_receiving, hreceive]
      exact ⟨rfl, trivial, rfl, rfl, htakes, htaken, hrest⟩
  back_count d id h := h
  back_send payload := fun d hleft hnil =>
    hleft (List.suffix_nil.1 (hnil ▸ (send_left payload d.transport).1))
  back_receive := fun d hleft => by
    have hsame := receive_left d.transport
    exact fun hnil => hleft (hsame.trans hnil)

/-- If the child's lines come in time and every `write` takes something, a session over the pipes
has the outcomes of the session over a stream of the same messages. The child gets the same messages
line by line, and the same lines are still to come. -/
theorem session_over_pipes (T : JsonText) (handlers : AList fun _ : Str => JsonRpcClient.Handler)
    (ops : List RpcOp) (lines chunks : List Str) (takes : List ℕ)
    (htimely : Timely lines [] chunks) (htakes : ∀ n ∈ takes, 0 < n) :
    let piped := JsonRpcClient.session T transport handlers ops
      { transport := { pipes := { takes := takes, brings := chunks } } }
    let streamed := JsonRpcClient.session T StreamTransport.transport handlers ops
      { transport := { scripted := lines } }
    piped.2.transport.pipes.takes ≠ [] →
      piped.1 = streamed.1
        ∧ piped.2.transport.pipes.taken = unlines newline streamed.2.transport.sent
        ∧ piped.2.transport.buffer ++ piped.2.transport.pipes.brings.flatten
          = unlines newline streamed.2.transport.scripted := by
  intro piped streamed hleft
  obtain ⟨hsame, hend⟩ := alike.session ops
    { transport := { scripted := lines } }
    { transport := { pipes := { takes := takes, brings := chunks } } }
    ⟨rfl, rfl, htakes, rfl, htimely⟩ hleft
  exact ⟨hsame.symm, hend.taken, hend.timely.stream⟩

/-- A ping, its answer, and a notification that nobody handles. -/
def pingText : JsonText := .ofTable
  [("ping", JsonRpcClient.requestJson 1 "ping" .null),
    ("pong", .ofFields [("id", .number_unsigned 1), ("result", .string "one")]),
    ("note", .ofFields [("method", .string "progress")])]

theorem session_over_pipes_ping :
    let piped := JsonRpcClient.session pingText transport ∅ [.call "ping" .null, .pump_once]
      { transport := { pipes := { takes := [1, 2, 5, 1, 1], brings := ["pong\nno", "te\n"] } } }
    piped.1 = [.ok (.string "one"), .ok .null] ∧ piped.2.transport.pipes.taken = lit "ping\n" := by
  obtain ⟨hsame, htaken, -⟩ := session_over_pipes pingText ∅ [.call "ping" .null, .pump_once]
    ["pong", "note"] ["pong\nno", "te\n"] [1, 2, 5, 1, 1]
    ⟨by decide, by decide, by decide, by decide, by decide⟩ (by decide) (by decide +kernel)
  exact ⟨hsame.trans (by decide +kernel), htaken.trans (by decide +kernel)⟩

end PosixStdioTransport

end Praxis
