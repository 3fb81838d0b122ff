import Praxis.Proofs.Attach

/-!
# Which server a remote tool calls

A tool is registered under its prefix and its name on the server, and takes the prefix off again
when it is called. As long as every attach finds the names of its listing free, every name that
`tools` gives leads to the server that listed it, and what was registered before stays
(`dispatch_of_free`).
-/

namespace Praxis

open Effect (Prog)

variable {W U : Type} {T : JsonText} {P : ℕ → JsonRpcTransport W} {library : Exn → Str}

namespace McpWorld

variable {w w' w'' : McpWorld W} {c : ℕ}

/-- The clients that there are keep their transports. -/
def Grows (w w' : McpWorld W) : Prop :=
  w.next ≤ w'.next ∧ ∀ c < w.next, (w'.clients c).transport = (w.clients c).transport

theorem client_setClient (cl : JsonRpcClient W) : (w.setClient c cl).client c = cl := by
  simp [client, setClient]

theorem setClient_setClient (cl cl' : JsonRpcClient W) :
    (w.setClient c cl).setClient c cl' = w.setClient c cl' := by
  simp [setClient]

theorem transport_setClient (cl : JsonRpcClient W) :
    ((w.setClient c cl).clients c).transport = (w.clients c).transport := by
  simp [setClient]

end McpWorld

namespace McpTool

open JsonRpcClient McpHost

variable {c : ℕ} {prefix_ name : Str} {w : McpWorld W} {params : Json}

/-- The prefix that registering puts before a name is what a call takes off. -/
theorem remote_name_full_name (prefix_ name : Str) :
    remote_name prefix_ (full_name prefix_ name) = name := by
  unfold remote_name full_name
  by_cases hpre : prefix_ = []
  · simp [hpre]
  · have hstarts : starts_with (prefix_ ++ lit "__") (prefix_ ++ lit "__" ++ name) = true := by
      simp [starts_with, List.isPrefixOf_iff_prefix]
    have hempty : prefix_.isEmpty = false := by simpa using hpre
    simp only [hempty, Bool.false_eq_true, if_false]
    rw [if_pos (by rw [hstarts]; rfl)]
    exact List.drop_left

/-- A call of the client, its halves one after the other. -/
theorem exec_callTool :
    (callTool T P c params).exec w =
      (((call T (P (w.clients c).transport) "tools/call" params).exec (w.client c)).1,
        w.setClient c
          ((call T (P (w.clients c).transport) "tools/call" params).exec (w.client c)).2) := by
  unfold callTool call
  simp only [ToolM.exec_bind, ToolM.exec_mk, Interleave.Proc.run_step, Prog.exec_bind]
  unfold McpWorld.onClient
  rcases (sendRequest T (P (w.clients c).transport) "tools/call" params).exec (w.client c)
    with ⟨e | id, cl⟩
  · rfl
  · simp only [McpWorld.client_setClient, McpWorld.setClient_setClient,
      McpWorld.transport_setClient]

/-- What a caller gets to see of a call of the server. -/
def resultOf (library : Exn → Str) (answer : Except Exn Json) : ToolResult :=
  match answer >>= readResult with
  | .ok result => result
  | .error e => .failed (e.what library)

theorem exec_invoke {call : ToolCall} {ctx : Ctx U}
    (hparse : T.parse call.arguments = some params) :
    (invoke T P library (some c) prefix_ call ctx).exec w =
      let called := (callTool T P c (.ofFields
        [("name", .string (remote_name prefix_ call.name)), ("arguments", params)])).exec w
      (.ok (resultOf library called.1), called.2) := by
  unfold invoke resultOf
  simp only [hparse]
  rw [ToolM.exec_tryCatch, ToolM.exec_bind]
  rcases (callTool T P c _).exec w with ⟨e | result, w'⟩
  · rfl
  · simp only [ToolM.exec_mk, Interleave.Proc.run_pure]
    rcases h : readResult result with e | r
    · simp only [bind, Except.bind, h]
      rfl
    · simp only [bind, Except.bind, h]

/-- Called under its full name, with arguments that are JSON, the tool does nothing but call the
server of its client with the name that the server knows. -/
def CallsServer (T : JsonText) (P : ℕ → JsonRpcTransport W) (library : Exn → Str)
    (tool : Tool (McpWorld W) U) (c server : ℕ) (full_name name : Str) (w : McpWorld W) : Prop :=
  ∀ (call : ToolCall) (ctx : Ctx U), call.name = full_name →
    (tool.invoke call ctx).exec w = match T.parse call.arguments with
      | none => (.ok (.failed "invalid arguments"), w)
      | some params =>
        let called := (JsonRpcClient.call T (P server) "tools/call"
          (.ofFields [("name", .string name), ("arguments", params)])).exec (w.client c)
        (.ok (resultOf library called.1), w.setClient c called.2)

theorem callsServer {server : ℕ} (hc : (w.clients c).transport = server) :
    CallsServer T P library
      (McpTool T P library (full_name prefix_ name) (some c) prefix_ : Tool _ U) c server
      (full_name prefix_ name) name w := by
  intro call ctx hname
  rcases hparse : T.parse call.arguments with _ | params
  · show (invoke T P library (some c) prefix_ call ctx).exec w = _
    unfold invoke
    simp only [hparse]
    rfl
  · show (invoke T P library (some c) prefix_ call ctx).exec w = _
    rw [exec_invoke hparse, hname, remote_name_full_name, exec_callTool, hc]

end McpTool

namespace McpHost

variable {prefix_ name : Str} {c : ℕ} {host : McpHost W U}

/-- The names that a server has for the tools of its listing. -/
def names (payload : Json) : List Str :=
  ((listing payload).map McpToolSpec.name).filter fun name => !name.isEmpty

theorem find_register_remote_tool {spec : McpToolSpec} :
    (host.register_remote_tool T P library spec prefix_ c).registry.find name
      = if spec.name ≠ [] ∧ name = full_name prefix_ spec.name then
          some (McpTool T P library name (some c) prefix_)
        else host.registry.find name := by
  unfold register_remote_tool
  by_cases hempty : spec.name = []
  · simp [hempty]
  · have hname : (McpTool T P library (full_name prefix_ spec.name) (some c) prefix_ :
        Tool (McpWorld W) U).descriptor.name = full_name prefix_ spec.name := rfl
    simp only [List.isEmpty_iff, hempty, if_false, ToolRegistry.find_register, hname, ne_eq,
      not_false_iff, true_and]
    split_ifs with h
    · rw [h]
    · rfl

/-- Of the tools of a listing each has its name, and the others are as they were. -/
theorem find_registerAll :
    ∀ {specs : List McpToolSpec} {host : McpHost W U},
      (host.registerAll T P library prefix_ c specs).registry.find name
        = if ∃ spec ∈ specs, spec.name ≠ [] ∧ name = full_name prefix_ spec.name then
            some (McpTool T P library name (some c) prefix_)
          else host.registry.find name
  | [], host => by simp [registerAll]
  | spec :: specs, host => by
    have hrest : host.registerAll T P library prefix_ c (spec :: specs)
        = (host.register_remote_tool T P library spec prefix_ c).registerAll T P library prefix_ c
          specs := rfl
    rw [hrest, find_registerAll, find_register_remote_tool]
    simp only [List.exists_mem_cons_iff]
    by_cases hspecs : ∃ spec ∈ specs, spec.name ≠ [] ∧ name = full_name prefix_ spec.name
    · rw [if_pos hspecs, if_pos (.inr hspecs)]
    · rw [if_neg hspecs]
      simp only [hspecs, or_false]

theorem mem_names {payload : Json} :
    name ∈ names payload ↔ ∃ spec ∈ listing payload, spec.name ≠ [] ∧ name = spec.name := by
  unfold names
  simp only [List.mem_filter, List.mem_map]
  constructor
  · rintro ⟨⟨spec, hspec, rfl⟩, hne⟩
    exact ⟨spec, hspec, by simpa using hne, rfl⟩
  · rintro ⟨spec, hspec, hne, rfl⟩
    exact ⟨⟨spec, hspec, rfl⟩, by simpa using hne⟩

theorem tools_registerAll :
    ∀ {specs : List McpToolSpec} {host : McpHost W U},
      (host.registerAll T P library prefix_ c specs).tools
        = host.tools ++ ((specs.map McpToolSpec.name).filter fun name => !name.isEmpty).map
            (full_name prefix_)
  | [], host => by simp [registerAll]
  | spec :: specs, host => by
    have hrest : host.registerAll T P library prefix_ c (spec :: specs)
        = (host.register_remote_tool T P library spec prefix_ c).registerAll T P library prefix_ c
          specs := rfl
    rw [hrest, tools_registerAll]
    unfold register_remote_tool
    by_cases hempty : spec.name = []
    · simp [hempty]
    · simp [hempty, tools]

end McpHost

open McpHost

/-- An attach that returns, and what the server listed in it. -/
structure Attached (W U : Type) (T : JsonText) (P : ℕ → JsonRpcTransport W)
    (library : Exn → Str) where
  before : Hosting W U
  server : ℕ
  prefix_ : Str
  payload : Json
  after : Hosting W U
  lists : ∃ x, Lists T (P server) before.world.world payload x
  returns : (attach T P library (some server) prefix_).exec before = (.ok (), after)

namespace Attached

variable {a : Attached W U T P library} {name : Str}

def client (a : Attached W U T P library) : ℕ := a.before.world.next

/-- The names of the listing as they are registered. -/
def full_names (a : Attached W U T P library) : List Str :=
  (names a.payload).map (full_name a.prefix_)

/-- No name of the listing was registered before. -/
def Free (a : Attached W U T P library) : Prop :=
  ∀ name ∈ a.full_names, a.before.host.registry.find name = none

theorem free_iff :
    a.Free ↔ a.full_names.all (fun name => (a.before.host.registry.find name).isNone) = true := by
  simp [Free, List.all_eq_true]

/-- An attach makes one client, for its server, and registers the listing. -/
theorem after_eq (a : Attached W U T P library) :
    ∃ x, a.after = { connected a.server a.before { next_id := 3, transport := x } with
      host := (connected a.server a.before { next_id := 3, transport := x }).host.registerAll T P
        library a.prefix_ a.client (listing a.payload) } := by
  obtain ⟨payload, x, hlists, -, hafter⟩ := attach_eq_ok.1 a.returns
  obtain ⟨x', hlists'⟩ := a.lists
  have h := exchange_eq_ok.2 ⟨x, hlists, rfl⟩
  rw [exchange_eq_ok.2 ⟨x', hlists', rfl⟩] at h
  cases h
  exact ⟨x, hafter⟩

theorem find_after (a : Attached W U T P library) (name : Str) :
    a.after.host.registry.find name
      = if name ∈ a.full_names then some (McpTool T P library name (some a.client) a.prefix_)
        else a.before.host.registry.find name := by
  obtain ⟨x, hafter⟩ := a.after_eq
  have hmem : name ∈ a.full_names ↔
      ∃ spec ∈ listing a.payload, spec.name ≠ [] ∧ name = full_name a.prefix_ spec.name := by
    simp only [full_names, List.mem_map, mem_names]
    constructor
    · rintro ⟨_, ⟨spec, hspec, hne, rfl⟩, rfl⟩
      exact ⟨spec, hspec, hne, rfl⟩
    · rintro ⟨spec, hspec, hne, rfl⟩
      exact ⟨spec.name, ⟨spec, hspec, hne, rfl⟩, rfl⟩
  rw [hafter]
  simp only [find_registerAll, ← hmem]
  rfl

theorem tools_after (a : Attached W U T P library) :
    a.after.host.tools = a.before.host.tools ++ a.full_names := by
  obtain ⟨x, hafter⟩ := a.after_eq
  rw [hafter]
  exact tools_registerAll

theorem grows_after (a : Attached W U T P library) : a.before.world.Grows a.after.world := by
  obtain ⟨x, hafter⟩ := a.after_eq
  rw [hafter]
  refine ⟨Nat.le_succ _, fun c hc => ?_⟩
  exact congrArg ClientCell.transport (Function.update_of_ne hc.ne _ _)

/-- The new client is there, with its server. -/
theorem client_after (a : Attached W U T P library) :
    a.client < a.after.world.next ∧ (a.after.world.clients a.client).transport = a.server := by
  obtain ⟨x, hafter⟩ := a.after_eq
  rw [hafter]
  exact ⟨Nat.lt_succ_self _, by simp [connected, client]⟩

theorem keeps (hfree : a.Free) {tool : Tool (McpWorld W) U}
    (h : a.before.host.registry.find name = some tool) :
    a.after.host.registry.find name = some tool := by
  rw [a.find_after, if_neg fun hmem => ?_, h]
  rw [hfree name hmem] at h
  cases h

end Attached

/-- Attaches that return, one after the other, while the world goes on between them. -/
inductive Attaches (T : JsonText) (P : ℕ → JsonRpcTransport W) (library : Exn → Str)
    (s₀ : Hosting W U) : List (Attached W U T P library) → Hosting W U → Prop
  | start : Attaches T P library s₀ [] s₀
  | pass {as : List (Attached W U T P library)} {s : Hosting W U} {w : McpWorld W}
      (h : Attaches T P library s₀ as s) (hw : s.world.Grows w) :
      Attaches T P library s₀ as { s with world := w }
  | attach {as : List (Attached W U T P library)} (a : Attached W U T P library)
      (h : Attaches T P library s₀ as a.before) : Attaches T P library s₀ (as ++ [a]) a.after

namespace Attaches

variable {s₀ s : Hosting W U} {as : List (Attached W U T P library)}

theorem tools_eq (h : Attaches T P library s₀ as s) :
    s.host.tools = s₀.host.tools ++ as.flatMap Attached.full_names := by
  induction h with
  | start => simp
  | pass h hw ih => exact ih
  | attach a h ih => rw [a.tools_after, ih, List.flatMap_append, List.flatMap_singleton,
      List.append_assoc]

/-- What is registered leads to the server that listed it. -/
theorem find_eq (h : Attaches T P library s₀ as s) (hfree : ∀ a ∈ as, a.Free) :
    ∀ a ∈ as, a.client < s.world.next ∧ (s.world.clients a.client).transport = a.server
      ∧ ∀ name ∈ a.full_names, s.host.registry.find name
        = some (McpTool T P library name (some a.client) a.prefix_) := by
  induction h with
  | start => simp
  | pass h hw ih =>
    intro a ha
    obtain ⟨hlt, htransport, hfind⟩ := ih hfree a ha
    exact ⟨hlt.trans_le hw.1, (hw.2 _ hlt).trans htransport, hfind⟩
  | attach b h ih =>
    intro a ha
    have hgrows := b.grows_after
    rcases List.mem_append.1 ha with ha | ha
    · obtain ⟨hlt, htransport, hfind⟩ :=
        ih (fun a ha => hfree a (List.mem_append_left _ ha)) a ha
      exact ⟨hlt.trans_le hgrows.1, (hgrows.2 _ hlt).trans htransport,
        fun name hname => b.keeps (hfree b (by simp)) (hfind name hname)⟩
    · obtain rfl := List.mem_singleton.1 ha
      exact ⟨a.client_after.1, a.client_after.2,
        fun name hname => by rw [a.find_after, if_pos hname]⟩

/-- If no attach lists a name that is registered already, none makes a tool unreachable, and under
every name that `tools` gives there is a tool that calls the server that listed it. -/
theorem dispatch_of_free (h : Attaches T P library s₀ as s) (hfree : ∀ a ∈ as, a.Free) :
    (∀ a ∈ as, ∀ name tool, a.before.host.registry.find name = some tool →
      a.after.host.registry.find name = some tool)
    ∧ s.host.tools = s₀.host.tools ++ as.flatMap (fun a =>
        (names a.payload).map (full_name a.prefix_))
    ∧ ∀ a ∈ as, ∀ name ∈ names a.payload,
        ∃ tool, s.host.registry.find (full_name a.prefix_ name) = some tool
          ∧ McpTool.CallsServer T P library tool a.client a.server (full_name a.prefix_ name) name
            s.world := by
  refine ⟨fun a ha name tool => a.keeps (hfree a ha), h.tools_eq, fun a ha name hname => ?_⟩
  obtain ⟨-, htransport, hfind⟩ := h.find_eq hfree a ha
  exact ⟨_, hfind _ (List.mem_map_of_mem hname), McpTool.callsServer htransport⟩

end Attaches

/-! ## Two servers -/

/-- Servers that have been given what they will say. -/
def streamAt (t : ℕ) : JsonRpcTransport (ℕ → StreamTransport) where
  send := fun payload w =>
    let sent := StreamTransport.transport.send payload (w t)
    (sent.1, Function.update w t sent.2)
  receive := fun w =>
    let received := StreamTransport.transport.receive (w t)
    (received.1, Function.update w t received.2)

/-- The payload of a server with one tool. -/
def oneTool (name : Str) : Json :=
  .ofFields [("tools", .array [.ofFields [("name", .string name)]])]

/-- What two servers say, the one with a tool `b__c` and the other with a tool `c`. -/
def twoServers : JsonText := .ofTable
  [("init", JsonRpcClient.requestJson 1 "initialize" init_params),
    ("note", JsonRpcClient.notificationJson "notifications/initialized" (.object [])),
    ("list", JsonRpcClient.requestJson 2 "tools/list" (.object [])),
    ("hello", .object []), ("tools 0", .ofFields [("result", oneTool "b__c")]),
    ("tools 1", .ofFields [("result", oneTool "c")]),
    ("call 0", JsonRpcClient.requestJson 3 "tools/call"
      (.ofFields [("name", .string "b__c"), ("arguments", .object [])])),
    ("call 1", JsonRpcClient.requestJson 3 "tools/call"
      (.ofFields [("name", .string "c"), ("arguments", .object [])]))]

/-- A machine on which the built-in tools find nothing. -/
def emptyPlatform : Platform (McpWorld (ℕ → StreamTransport)) Empty where
  read := fun _ _ => none
  file_exists := fun _ _ => .ok false
  entries_below := fun _ _ => .ok []
  last_write_time := fun _ _ => none
  file_size := fun _ _ => none
  create_parent := fun w _ => w
  open_trunc := fun _ _ => none
  write := fun _ _ _ => none
  spawn := fun _ _ => .ret []
  user_read_file := nofun
  user_file_exists := nofun
  user_exec_argv := nofun
  user_fork := nofun

def builtinHosting : Hosting (ℕ → StreamTransport) Empty where
  host := { registry := register_builtin_tools twoServers emptyPlatform {} none }
  world :=
    { world := fun t => { scripted := [lit "hello", lit "tools " ++ decimal t] }
      clients := fun _ => { transport := 0 }
      next := 0 }

def attachTo (server : ℕ) (prefix_ : Str) (s : Hosting (ℕ → StreamTransport) Empty) :
    Except Exn Unit × Hosting (ℕ → StreamTransport) Empty :=
  (attach twoServers streamAt (fun _ => []) (some server) prefix_).exec s

/-- An attach, if it returns. -/
def attachedTo (server : ℕ) (prefix_ : Str) (before : Hosting (ℕ → StreamTransport) Empty)
    (payload : Json)
    (hlists : ((exchange twoServers (streamAt server)).exec
      { transport := before.world.world }).1 = .ok payload)
    (hreturns : (attachTo server prefix_ before).1 = .ok ()) :
    Attached (ℕ → StreamTransport) Empty twoServers streamAt fun _ => [] where
  before := before
  server := server
  prefix_ := prefix_
  payload := payload
  after := (attachTo server prefix_ before).2
  lists := (exchange_eq_ok.1 (Prod.ext hlists rfl)).imp fun _ h => h.1
  returns := Prod.ext hreturns rfl

/-- The two servers with prefixes that keep them apart. -/
def attachedX : Attached (ℕ → StreamTransport) Empty twoServers streamAt fun _ => [] :=
  attachedTo 0 "x" builtinHosting (oneTool "b__c") (by decide +kernel) (by decide +kernel)

def attachedY : Attached (ℕ → StreamTransport) Empty twoServers streamAt fun _ => [] :=
  attachedTo 1 "y" attachedX.after (oneTool "c") (by decide +kernel) (by decide +kernel)

theorem dispatch_of_free_two :
    (∃ tool, attachedY.after.host.registry.find "x__b__c" = some tool
      ∧ McpTool.CallsServer twoServers streamAt (fun _ => []) tool 0 0 "x__b__c" "b__c"
        attachedY.after.world)
    ∧ ∃ tool, attachedY.after.host.registry.find "y__c" = some tool
      ∧ McpTool.CallsServer twoServers streamAt (fun _ => []) tool 1 1 "y__c" "c"
        attachedY.after.world := by
  have hfree : ∀ a ∈ [attachedX, attachedY], a.Free :=
    List.forall_mem_cons.2 ⟨Attached.free_iff.2 (by decide +kernel),
      List.forall_mem_singleton.2 (Attached.free_iff.2 (by decide +kernel))⟩
  have h := Attaches.dispatch_of_free
    (.attach attachedY (.attach attachedX .start)) hfree
  exact ⟨h.2.2 attachedX (by simp) "b__c" (by decide +kernel),
    h.2.2 attachedY (by simp) "c" (by decide +kernel)⟩

/-- With prefixes that do not keep them apart, both tools have one name, and a call of it does not
go to the server that listed it first. -/
theorem dispatch_not_own :
    (attachTo 0 "a" builtinHosting).1 = .ok ()
    ∧ (attachTo 1 "a__b" (attachTo 0 "a" builtinHosting).2).1 = .ok ()
    ∧ (attachTo 1 "a__b" (attachTo 0 "a" builtinHosting).2).2.host.tools
      = [full_name "a" "b__c", full_name "a__b" "c"]
    ∧ ∃ tool, (attachTo 1 "a__b" (attachTo 0 "a" builtinHosting).2).2.host.registry.find
        (full_name "a" "b__c") = some tool
      ∧ ¬ McpTool.CallsServer twoServers streamAt (fun _ => []) tool 0 0 (full_name "a" "b__c")
        "b__c" (attachTo 1 "a__b" (attachTo 0 "a" builtinHosting).2).2.world := by
  refine ⟨by decide +kernel, by decide +kernel, by decide +kernel, _,
    Option.eq_some_of_isSome (by decide +kernel), fun h => ?_⟩
  have hsent := congrArg (fun r => (r.2.world 0).sent.length)
    (h { name := full_name "a" "b__c", arguments := "hello" } .basic rfl)
  revert hsent
  decide +kernel

end Praxis
