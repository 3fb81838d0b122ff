import Praxis.McpHost

/-!
# Attaching a server

`attach` notes the client before it speaks to the server, and registers the tools of a listing one
by one; nothing is taken back. So it is all or nothing exactly if there is no transport or nothing
throws (`attach_keeps_iff`): the server answers both requests without an error and lists only
entries that can be read.
-/

namespace Praxis

open Effect (Prog except_bind_eq_ok)

namespace JsonRpcClient

variable {X : Type} {T : JsonText} {P : JsonRpcTransport X} {method : Str} {params result : Json}
  {c c' : JsonRpcClient X} {id : ℤ} {raw : Str}

/-- The transport takes the text of a message. -/
def Takes (T : JsonText) (P : JsonRpcTransport X) (message : Json) (x x' : X) : Prop :=
  ∃ payload, T.dump message = .ok payload ∧ P.send payload x = (.ok (), x')

/-- The response is an object, its error is absent or null, and this is its result. -/
def Responds (resp result : Json) : Prop :=
  (∃ fields, resp = .object fields)
    ∧ (resp.field? "error" = none ∨ resp.field? "error" = some .null)
    ∧ result = (resp.field? "result").getD (.object [])

/-- The transport takes a request and what it gives next is a response to it. -/
def Answers (T : JsonText) (P : JsonRpcTransport X) (id : ℤ) (method : Str) (params : Json)
    (x : X) (result : Json) (x' : X) : Prop :=
  ∃ x₁ raw resp, Takes T P (requestJson id method params) x x₁ ∧ P.receive x₁ = (.ok raw, x')
    ∧ raw ≠ [] ∧ T.parse raw = some resp ∧ Responds resp result

theorem value_result_eq_ok {resp : Json} :
    resp.value .ok "result" (.object []) = .ok result ↔
      (∃ fields, resp = .object fields) ∧ result = (resp.field? "result").getD (.object []) := by
  cases resp with
  | object fields =>
    simp only [Json.value, Json.field?]
    rcases fields.lookup (lit "result") with _ | v
    · simp [eq_comm]
    · simp [eq_comm]
  | _ => simp [Json.value]

theorem readResponse_eq_ok {resp : Json} :
    readResponse T resp = .ok result ↔ Responds resp result := by
  unfold readResponse Responds
  rcases resp.field? (lit "error") with _ | error
  · simp [value_result_eq_ok]
  · by_cases hnull : error = .null
    · simp [hnull, value_result_eq_ok]
    · simp only [hnull, if_false]
      refine iff_of_false ?_ (by simp [hnull])
      rcases T.dump error with e | what
      · nofun
      · nofun

theorem readAnswer_eq_ok :
    readAnswer T raw = .ok result ↔
      raw ≠ [] ∧ ∃ resp, T.parse raw = some resp ∧ Responds resp result := by
  unfold readAnswer
  by_cases hraw : raw = []
  · simp [hraw]
  · rw [if_neg (by simpa using hraw)]
    rcases T.parse raw with _ | resp
    · simp
    · simp [hraw, readResponse_eq_ok]

theorem sendRequest_eq_ok :
    (sendRequest T P method params).exec c = (.ok id, c') ↔
      ∃ x', Takes T P (requestJson c.next_id method params) c.transport x'
        ∧ id = c.next_id ∧ c' = { next_id := c.next_id + 1, transport := x' } := by
  unfold sendRequest Takes
  simp only [Prog.exec_bind, Prog.exec_step, Prog.exec_ofExcept]
  rcases T.dump (requestJson c.next_id method params) with e | payload
  · simp
  · rcases h : P.send payload c.transport with ⟨e | u, x'⟩
    · simp [h]
    · simp [h, eq_comm]

theorem receiveAnswer_eq_ok :
    (receiveAnswer T P).exec c = (.ok result, c') ↔
      ∃ raw x', P.receive c.transport = (.ok raw, x') ∧ readAnswer T raw = .ok result
        ∧ c' = { c with transport := x' } := by
  unfold receiveAnswer
  simp only [Prog.exec_bind, Prog.exec_of, Prog.exec_ofExcept]
  rcases h : P.receive c.transport with ⟨e | raw, x'⟩
  · simp
  · simp [eq_comm]

theorem call_eq_ok :
    (call T P method params).exec c = (.ok result, c') ↔
      ∃ x', Answers T P c.next_id method params c.transport result x'
        ∧ c' = { next_id := c.next_id + 1, transport := x' } := by
  unfold call Answers
  simp only [Prog.exec_bind_eq_ok, sendRequest_eq_ok, receiveAnswer_eq_ok, readAnswer_eq_ok]
  constructor
  · rintro ⟨_, _, ⟨x₁, hsend, rfl, rfl⟩, raw, x', hreceive, ⟨hraw, resp, hparse, hresp⟩, rfl⟩
    exact ⟨x', ⟨x₁, raw, resp, hsend, hreceive, hraw, hparse, hresp⟩, rfl⟩
  · rintro ⟨x', ⟨x₁, raw, resp, hsend, hreceive, hraw, hparse, hresp⟩, rfl⟩
    exact ⟨_, _, ⟨x₁, hsend, rfl, rfl⟩, raw, x', hreceive, ⟨hraw, resp, hparse, hresp⟩, rfl⟩

theorem notify_eq_ok {u : Unit} :
    (notify T P method params).exec c = (.ok u, c') ↔
      ∃ x', Takes T P (notificationJson method params) c.transport x'
        ∧ c' = { c with transport := x' } := by
  unfold notify Takes
  simp only [Prog.exec_bind, Prog.exec_ofExcept]
  rcases T.dump (notificationJson method params) with e | payload
  · simp
  · rcases h : P.send payload c.transport with ⟨e | u, x'⟩
    · simp [h]
    · simp [h, eq_comm]

end JsonRpcClient

namespace McpHost

open JsonRpcClient

variable {W U α : Type} {T : JsonText} {P : ℕ → JsonRpcTransport W} {library : Exn → Str}
  {s s' : Hosting W U} {t c : ℕ} {prefix_ : Str} {payload : Json}

/-- The field, if there is one, is a string. -/
def StringOrAbsent (t : Json) (key : Str) : Prop := ∀ v, t.field? key = some v → ∃ s, v = .string s

/-- The entry is an object whose name and description are strings. -/
def ReadableEntry (t : Json) : Prop :=
  (∃ fields, t = .object fields) ∧ StringOrAbsent t "name" ∧ StringOrAbsent t "description"

/-- Every entry of the tools, if they are an array, can be read. -/
def Readable (payload : Json) : Prop :=
  ∀ entries, payload.field? "tools" = some (.array entries) → ∀ t ∈ entries, ReadableEntry t

/-- From `x` on, the server answers the two requests without an error, takes the notification
between them and lists the payload. -/
def Lists (T : JsonText) (P : JsonRpcTransport W) (x : W) (payload : Json) (x' : W) : Prop :=
  ∃ info x₁ x₂, Answers T P 1 "initialize" init_params x info x₁
    ∧ Takes T P (notificationJson "notifications/initialized" (.object [])) x₁ x₂
    ∧ Answers T P 2 "tools/list" (.object []) x₂ payload x'

/-- The server lists tools that can be read. -/
def Accepts (T : JsonText) (P : JsonRpcTransport W) (x : W) : Prop :=
  ∃ payload x', Lists T P x payload x' ∧ Readable payload

/-- The host with a new client, after the exchange has brought it to here. -/
def connected (t : ℕ) (s : Hosting W U) (c : JsonRpcClient W) : Hosting W U where
  host := { s.host with clients_ := s.host.clients_ ++ [s.world.next] }
  world :=
    { world := c.transport
      clients := Function.update s.world.clients s.world.next
        { next_id := c.next_id, transport := t }
      next := s.world.next + 1 }

theorem withClient_connected (x : JsonRpcTransport W → Prog Exn (JsonRpcClient W) α)
    (cl : JsonRpcClient W) :
    (withClient P s.world.next x).exec (connected t s cl)
      = (((x (P t)).exec cl).1, connected t s ((x (P t)).exec cl).2) := by
  unfold withClient McpWorld.onClient McpWorld.client McpWorld.setClient connected
  simp

/-- What is said on the connection. -/
def exchange (T : JsonText) (P : JsonRpcTransport W) : Prog Exn (JsonRpcClient W) Json := do
  let _ ← call T P "initialize" init_params
  notify T P "notifications/initialized" (.object [])
  call T P "tools/list" (.object [])

theorem exec_connect :
    (connect T P t).exec s
      = (((exchange T (P t)).exec { transport := s.world.world }).1.map
          fun payload => (s.world.next, payload),
        connected t s ((exchange T (P t)).exec { transport := s.world.world }).2) := by
  have hmade : ({ host := { s.host with clients_ := s.host.clients_ ++ [s.world.next] }
                  world := (s.world.make_client t).2 } : Hosting W U)
      = connected t s { transport := s.world.world } := rfl
  unfold connect perform_mcp_handshake exchange
  simp only [Prog.exec_bind, Prog.exec_step, McpWorld.make_client] at hmade ⊢
  rw [hmade]
  simp only [withClient_connected]
  rcases (call T (P t) "initialize" init_params).exec _ with ⟨e | info, c₁⟩
  · rfl
  · simp only [withClient_connected]
    rcases (notify T (P t) "notifications/initialized" (.object [])).exec c₁ with ⟨e | u, c₂⟩
    · rfl
    · simp only [withClient_connected]
      rcases (call T (P t) "tools/list" (.object [])).exec c₂ with ⟨e | payload, c₃⟩
      · rfl
      · rfl

theorem exchange_eq_ok {P : JsonRpcTransport W} {x : W} {cl : JsonRpcClient W} :
    (exchange T P).exec { transport := x } = (.ok payload, cl) ↔
      ∃ x', Lists T P x payload x' ∧ cl = { next_id := 3, transport := x' } := by
  unfold exchange Lists
  simp only [Prog.exec_bind_eq_ok, call_eq_ok, notify_eq_ok]
  constructor
  · rintro ⟨info, _, ⟨x₁, hinit, rfl⟩, _, _, ⟨x₂, hnote, rfl⟩, x', hlist, rfl⟩
    exact ⟨x', ⟨info, x₁, x₂, hinit, hnote, hlist⟩, rfl⟩
  · rintro ⟨x', ⟨info, x₁, x₂, hinit, hnote, hlist⟩, rfl⟩
    exact ⟨info, _, ⟨x₁, hinit, rfl⟩, (), _, ⟨x₂, hnote, rfl⟩, x', hlist, rfl⟩

/-- A connection that stands has a new client for the transport. -/
theorem connect_eq_ok :
    (connect T P t).exec s = (.ok (c, payload), s') ↔
      ∃ x', Lists T (P t) s.world.world payload x' ∧ c = s.world.next
        ∧ s' = connected t s { next_id := 3, transport := x' } := by
  rw [exec_connect]
  rcases h : (exchange T (P t)).exec { transport := s.world.world } with ⟨e | answer, cl⟩
  · refine iff_of_false nofun ?_
    rintro ⟨x', hlists, -⟩
    rw [exchange_eq_ok.2 ⟨x', hlists, rfl⟩] at h
    cases h
  · constructor
    · intro heq
      cases heq
      obtain ⟨x', hlists, rfl⟩ := exchange_eq_ok.1 h
      exact ⟨x', hlists, rfl, rfl⟩
    · rintro ⟨x', hlists, rfl, rfl⟩
      rw [exchange_eq_ok.2 ⟨x', hlists, rfl⟩] at h
      cases h
      rfl

/-- The specs that the entries of a payload give. -/
def listing (payload : Json) : List McpToolSpec :=
  match payload.field? "tools" with
  | some (.array entries) => entries.filterMap fun t => (readSpec t).toOption
  | _ => []

theorem value_getString_isOk {t : Json} {key dflt : Str} :
    (∃ s, t.value Json.getString key dflt = .ok s) ↔
      (∃ fields, t = .object fields) ∧ StringOrAbsent t key := by
  unfold StringOrAbsent
  cases t with
  | object fields =>
    simp only [Json.value, Json.field?]
    rcases fields.lookup key with _ | v
    · simp
    · cases v <;> simp [Json.getString]
  | _ => simp [Json.value]

theorem readSpec_isOk {t : Json} : (∃ spec, readSpec t = .ok spec) ↔ ReadableEntry t := by
  unfold readSpec ReadableEntry
  constructor
  · rintro ⟨spec, h⟩
    obtain ⟨name, hname, h⟩ := except_bind_eq_ok.1 h
    obtain ⟨description, hdescription, -⟩ := except_bind_eq_ok.1 h
    obtain ⟨hobj, hname⟩ := value_getString_isOk.1 ⟨name, hname⟩
    exact ⟨hobj, hname, (value_getString_isOk.1 ⟨description, hdescription⟩).2⟩
  · rintro ⟨hobj, hname, hdescription⟩
    obtain ⟨name, hname⟩ : ∃ name, t.value Json.getString "name" [] = .ok name :=
      value_getString_isOk.2 ⟨hobj, hname⟩
    obtain ⟨description, hdescription⟩ :
        ∃ description, t.value Json.getString "description" [] = .ok description :=
      value_getString_isOk.2 ⟨hobj, hdescription⟩
    obtain ⟨fields, rfl⟩ := hobj
    refine ⟨{ name := name, description := description
              schema := ((Json.object fields).field? "inputSchema").getD (.object []) }, ?_⟩
    refine except_bind_eq_ok.2 ⟨name, hname, except_bind_eq_ok.2 ⟨description, hdescription, ?_⟩⟩
    refine except_bind_eq_ok.2 ⟨_, ?_, rfl⟩
    simp only [Json.value, Json.field?]
    rcases fields.lookup (lit "inputSchema") with _ | schema <;> rfl

/-- The tools of a list of specs, registered one by one. -/
def registerAll (T : JsonText) (P : ℕ → JsonRpcTransport W) (library : Exn → Str) (prefix_ : Str)
    (client : ℕ) (specs : List McpToolSpec) (host : McpHost W U) : McpHost W U :=
  specs.foldl (fun host spec => host.register_remote_tool T P library spec prefix_ client) host

theorem pure_eq_ok : (pure () : HostM W U Unit).exec s = (.ok (), s') ↔ s' = s := by
  simp [eq_comm]

theorem register_entries_eq_ok :
    ∀ {entries : List Json} {s : Hosting W U},
      (register_entries T P library prefix_ c entries).exec s = (.ok (), s') ↔
        (∀ t ∈ entries, ReadableEntry t)
          ∧ s' = { s with
            host := s.host.registerAll T P library prefix_ c
              (entries.filterMap fun t => (readSpec t).toOption) }
  | [], s => by
    unfold register_entries
    rw [pure_eq_ok]
    exact ⟨fun h => ⟨by simp, h⟩, And.right⟩
  | t :: entries, s => by
    unfold register_entries
    rw [List.forall_mem_cons, ← readSpec_isOk, Prog.exec_bind, Prog.exec_ofExcept]
    rcases h : readSpec t with e | spec
    · simp
    · have hrest : (t :: entries).filterMap (fun t => (readSpec t).toOption)
          = spec :: entries.filterMap fun t => (readSpec t).toOption :=
        List.filterMap_cons_some (by rw [h]; rfl)
      simp only [Prog.exec_bind, Prog.exec_step, register_entries_eq_ok]
      simp [registerAll, hrest]

/-- A registration that returns has registered the listing. -/
theorem register_tools_from_payload_eq_ok :
    (register_tools_from_payload T P library payload prefix_ c).exec s = (.ok (), s') ↔
      Readable payload
        ∧ s' = { s with host := s.host.registerAll T P library prefix_ c (listing payload) } := by
  unfold register_tools_from_payload Readable listing
  rcases payload.field? (lit "tools") with _ | tools
  · rw [pure_eq_ok]
    exact ⟨fun h => ⟨nofun, h⟩, And.right⟩
  · cases tools with
    | array entries => simp [register_entries_eq_ok]
    | _ =>
      rw [pure_eq_ok]
      exact ⟨fun h => ⟨nofun, h⟩, And.right⟩

/-- An attach that returns has got a listing and registered it. -/
theorem attach_eq_ok :
    (attach T P library (some t) prefix_).exec s = (.ok (), s') ↔
      ∃ payload x', Lists T (P t) s.world.world payload x' ∧ Readable payload
        ∧ s' = { connected t s { next_id := 3, transport := x' } with
          host := (connected t s { next_id := 3, transport := x' }).host.registerAll T P library
            prefix_ s.world.next (listing payload) } := by
  unfold attach
  simp only [Prog.exec_bind_eq_ok]
  constructor
  · rintro ⟨⟨c, payload⟩, s₁, hconnect, hregister⟩
    obtain ⟨x', hlists, rfl, rfl⟩ := connect_eq_ok.1 hconnect
    obtain ⟨hreadable, rfl⟩ := register_tools_from_payload_eq_ok.1 hregister
    exact ⟨payload, x', hlists, hreadable, rfl⟩
  · rintro ⟨payload, x', hlists, hreadable, rfl⟩
    exact ⟨(s.world.next, payload), _, connect_eq_ok.2 ⟨x', hlists, rfl, rfl⟩,
      register_tools_from_payload_eq_ok.2 ⟨hreadable, rfl⟩⟩

/-- The first entry that cannot be read throws, when those before it are registered. -/
theorem register_entries_eq_error {e : Exn} :
    ∀ {entries : List Json} {s : Hosting W U},
      (register_entries T P library prefix_ c entries).exec s = (.error e, s') →
        ∃ read bad rest, entries = read ++ bad :: rest ∧ (∀ t ∈ read, ReadableEntry t)
          ∧ ¬ ReadableEntry bad
          ∧ s' = { s with
            host := s.host.registerAll T P library prefix_ c
              (read.filterMap fun t => (readSpec t).toOption) }
  | [], s, h => by cases h
  | t :: entries, s, h => by
    unfold register_entries at h
    rw [Prog.exec_bind, Prog.exec_ofExcept] at h
    rcases hspec : readSpec t with e' | spec
    · rw [hspec] at h
      cases h
      refine ⟨[], t, entries, rfl, by simp, fun hread => ?_, rfl⟩
      obtain ⟨spec, hok⟩ := readSpec_isOk.2 hread
      rw [hspec] at hok
      cases hok
    · rw [hspec] at h
      simp only [Prog.exec_bind, Prog.exec_step] at h
      obtain ⟨read, bad, rest, rfl, hread, hbad, rfl⟩ := register_entries_eq_error h
      refine ⟨t :: read, bad, rest, rfl,
        List.forall_mem_cons.2 ⟨readSpec_isOk.1 ⟨spec, hspec⟩, hread⟩, hbad, ?_⟩
      rw [List.filterMap_cons_some (by rw [hspec]; rfl)]
      rfl

/-- The host with a client more. -/
def withNewClient (client : ℕ) (host : McpHost W U) : McpHost W U :=
  { host with clients_ := host.clients_ ++ [client] }

/-- What an attach that throws leaves of the host: a client more, and if the server lists an entry
that cannot be read, the tools of the entries before it. -/
def LeftBy (T : JsonText) (P : ℕ → JsonRpcTransport W) (library : Exn → Str) (t : ℕ) (prefix_ : Str)
    (s : Hosting W U) (host : McpHost W U) : Prop :=
  (¬ ∃ payload x', Lists T (P t) s.world.world payload x')
      ∧ host = s.host.withNewClient s.world.next
  ∨ ∃ payload x' read bad rest, Lists T (P t) s.world.world payload x'
    ∧ payload.field? "tools" = some (.array (read ++ bad :: rest))
    ∧ (∀ entry ∈ read, ReadableEntry entry) ∧ ¬ ReadableEntry bad
    ∧ host = (s.host.withNewClient s.world.next).registerAll T P library prefix_ s.world.next
        (read.filterMap fun entry => (readSpec entry).toOption)

theorem attach_eq_error {e : Exn}
    (h : (attach T P library (some t) prefix_).exec s = (.error e, s')) :
    LeftBy T P library t prefix_ s s'.host := by
  unfold attach at h
  rw [Prog.exec_bind, exec_connect] at h
  rcases hex : (exchange T (P t)).exec { transport := s.world.world } with ⟨e' | payload, cl⟩
  · rw [hex] at h
    cases h
    refine .inl ⟨fun hlists => ?_, rfl⟩
    obtain ⟨payload, x', hlists⟩ := hlists
    rw [exchange_eq_ok.2 ⟨x', hlists, rfl⟩] at hex
    cases hex
  · obtain ⟨x', hlists, rfl⟩ := exchange_eq_ok.1 hex
    rw [hex] at h
    replace h : (register_tools_from_payload T P library payload prefix_ s.world.next).exec
      (connected t s { next_id := 3, transport := x' }) = (.error e, s') := h
    unfold register_tools_from_payload at h
    rcases htools : payload.field? (lit "tools") with _ | tools
    · rw [htools] at h
      cases h
    · rw [htools] at h
      cases tools with
      | array entries =>
        obtain ⟨read, bad, rest, rfl, hread, hbad, rfl⟩ := register_entries_eq_error h
        exact .inr ⟨payload, x', read, bad, rest, hlists, htools, hread, hbad, rfl⟩
      | _ => cases h

theorem clients_registerAll :
    ∀ (specs : List McpToolSpec) {host : McpHost W U},
      (host.registerAll T P library prefix_ c specs).clients_ = host.clients_
  | [], host => rfl
  | spec :: specs, host => by
    have hfirst : (host.register_remote_tool T P library spec prefix_ c).clients_
        = host.clients_ := by
      unfold register_remote_tool
      split_ifs <;> rfl
    exact (clients_registerAll specs).trans hfirst

theorem LeftBy.ne {host : McpHost W U} (h : LeftBy T P library t prefix_ s host) :
    host ≠ s.host := by
  have hclients : host.clients_ = s.host.clients_ ++ [s.world.next] := by
    obtain ⟨-, rfl⟩ | ⟨_, _, _, _, _, -, -, -, -, rfl⟩ := h
    · rfl
    · rw [clients_registerAll]
      rfl
  rintro rfl
  simp at hclients

/-- An attach is all or nothing exactly if it has no transport or the server accepts, and else it
leaves a client behind, with the tools of the entries before the first that cannot be read. -/
theorem attach_keeps_iff (T : JsonText) (P : ℕ → JsonRpcTransport W) (library : Exn → Str)
    (transport : Option ℕ) (prefix_ : Str) (s : Hosting W U) :
    ((∀ e s', (attach T P library transport prefix_).exec s = (.error e, s') → s'.host = s.host) ↔
      ∀ t, transport = some t → Accepts T (P t) s.world.world)
    ∧ ∀ t e s', transport = some t →
        (attach T P library transport prefix_).exec s = (.error e, s') →
        LeftBy T P library t prefix_ s s'.host := by
  refine ⟨⟨?_, ?_⟩, ?_⟩
  · rintro hkeeps t rfl
    rcases h : (attach T P library (some t) prefix_).exec s with ⟨e | u, s'⟩
    · exact ((attach_eq_error h).ne (hkeeps e s' h)).elim
    · obtain ⟨payload, x', hlists, hreadable, -⟩ := attach_eq_ok.1 h
      exact ⟨payload, x', hlists, hreadable⟩
  · intro haccepts e s' h
    cases transport with
    | none =>
      cases h
      rfl
    | some t =>
      obtain ⟨payload, x', hlists, hreadable⟩ := haccepts t rfl
      rw [attach_eq_ok.2 ⟨payload, x', hlists, hreadable, rfl⟩] at h
      cases h
  · rintro t e s' rfl h
    exact attach_eq_error h

/-- A server that lists a tool and then a number. -/
def halfListing : JsonText := .ofTable
  [("init", requestJson 1 "initialize" init_params),
    ("note", notificationJson "notifications/initialized" (.object [])),
    ("list", requestJson 2 "tools/list" (.object [])), ("hello", .object []),
    ("tools", .ofFields [("result", .ofFields
      [("tools", .array [.ofFields [("name", .string "a")], .number_unsigned 3])])])]

/-- A host with nothing attached, before a server that will say the messages. -/
def freshHosting (scripted : List Str) : Hosting StreamTransport Empty where
  host := { registry := {} }
  world := { world := { scripted := scripted }, clients := fun _ => { transport := 0 }, next := 0 }

/-- The second entry throws when the client is noted and the first entry is registered. -/
theorem attach_not_kept :
    ∃ s', (attach halfListing (fun _ => StreamTransport.transport) (fun _ => []) (some 0) "").exec
        (freshHosting ["hello", "tools"]) = (.error (.type_error 306), s')
      ∧ s'.host.clients_ ≠ (freshHosting ["hello", "tools"]).host.clients_
      ∧ s'.host.tools_ ≠ (freshHosting ["hello", "tools"]).host.tools_
      ∧ (s'.host.registry.find "a").isSome
      ∧ ((freshHosting ["hello", "tools"]).host.registry.find "a").isNone :=
  ⟨_, Prod.ext (by decide +kernel) rfl, by decide +kernel, by decide +kernel, by decide +kernel,
    by decide +kernel⟩

end McpHost

end Praxis
