import Praxis.Builtin
import Praxis.JsonRpc

/-!
# The MCP host

A client stands in the world with its counter and the number of its transport; the transports act
on what is left of the world, so several may lead to one server. A host registers a tool for every
tool that a server lists.
-/

namespace Praxis

open Interleave (Proc)
open Effect (Prog)

/-- `e.what()`; what the JSON library and the file system say is up to them. -/
def Exn.what (library : Exn → Str) : Exn → Str
  | .user what => what
  | e => library e

/-- A `JsonRpcClient` in memory. -/
structure ClientCell where
  next_id : ℤ := 1
  transport : ℕ
  deriving DecidableEq

/-- A world with the clients, those from `next` on not made yet. -/
structure McpWorld (W : Type) where
  world : W
  clients : ℕ → ClientCell
  next : ℕ

variable {W U α : Type}

namespace McpWorld

/-- The client with that number, as its transport sees it. -/
def client (c : ℕ) (w : McpWorld W) : JsonRpcClient W :=
  { next_id := (w.clients c).next_id, transport := w.world }

def setClient (c : ℕ) (client : JsonRpcClient W) (w : McpWorld W) : McpWorld W :=
  { w with
    world := client.transport
    clients := Function.update w.clients c { w.clients c with next_id := client.next_id } }

/-- What a client does, with its own transport. -/
def onClient (P : ℕ → JsonRpcTransport W) (c : ℕ)
    (x : JsonRpcTransport W → Prog Exn (JsonRpcClient W) α) (w : McpWorld W) :
    Except Exn α × McpWorld W :=
  let r := (x (P (w.clients c).transport)).exec (w.client c)
  (r.1, w.setClient c r.2)

/-- `std::make_shared<JsonRpcClient>(transport)`. -/
def make_client (transport : ℕ) (w : McpWorld W) : ℕ × McpWorld W :=
  (w.next, { w with
    clients := Function.update w.clients w.next { transport := transport }
    next := w.next + 1 })

end McpWorld

variable (T : JsonText) (P : ℕ → JsonRpcTransport W) (library : Exn → Str)

/-! ## Remote tools -/

namespace McpTool

/-- The text of the first entry of a result's content. -/
def firstText (result : Json) : Option Json :=
  match result.field? "content" with
  | some (.array (first :: _)) => first.field? "text"
  | _ => none

/-- What `invoke` makes of the result of `tools/call`. -/
def readResult (result : Json) : Except Exn ToolResult := do
  let isError ← match result with
    | .object _ => result.value Json.getBool "isError" false
    | _ => pure false
  if isError then
    let msg ← match firstText result with
      | some text => text.getString
      | none => pure "remote tool error"
    pure (.failed msg)
  else
    match result.field? "structuredContent", firstText result with
    | some output, _ => pure { output := output }
    | none, some text => pure { output := text }
    | none, none => pure { output := result }

/-- The name on the server. -/
def remote_name (prefix_ name : Str) : Str :=
  if !prefix_.isEmpty && starts_with (prefix_ ++ "__") name then
    name.drop (prefix_ ++ lit "__").length
  else name

/-- A call of the client, as two actions: it sends, and it receives. -/
def callTool (c : ℕ) (params : Json) : ToolM (McpWorld W) Json := do
  let _ ← ExceptT.mk (Proc.step (McpWorld.onClient P c fun P =>
    JsonRpcClient.sendRequest T P "tools/call" params))
  ExceptT.mk (Proc.step (McpWorld.onClient P c fun P => JsonRpcClient.receiveAnswer T P))

def invoke (client : Option ℕ) (prefix_ : Str) (call : ToolCall) (_ : Ctx U) :
    ToolM (McpWorld W) ToolResult :=
  match client, T.parse call.arguments with
  | none, _ => pure (.failed "mcp client disconnected")
  | some _, none => pure (.failed "invalid arguments")
  | some c, some params =>
    tryCatch
      (do
        let result ← callTool T P c (.ofFields
          [("name", .string (remote_name prefix_ call.name)), ("arguments", params)])
        ExceptT.mk (pure (readResult result)))
      fun e => pure (.failed (e.what library))

def descriptor (name : Str) : ToolDescriptor := { name := name, declared_resources := ["mcp"] }

end McpTool

def McpTool (name : Str) (client : Option ℕ) (prefix_ : Str) : Tool (McpWorld W) U where
  descriptor := McpTool.descriptor name
  resources_for := default_resources_for (McpTool.descriptor name)
  invoke := McpTool.invoke T P library client prefix_

/-! ## The host -/

structure McpToolSpec where
  name : Str := []
  description : Str := []
  schema : Json := .object []
  deriving DecidableEq

/-- An `McpHost`, with the registry it refers to. -/
structure McpHost (W U : Type) where
  registry : ToolRegistry (McpWorld W) U
  tools_ : List McpToolSpec := []
  clients_ : List ℕ := []

/-- A host and the world it is in. -/
structure Hosting (W U : Type) where
  host : McpHost W U
  world : McpWorld W

/-- The code of a host. -/
abbrev HostM (W U α : Type) := Prog Exn (Hosting W U) α

namespace McpHost

def tools (host : McpHost W U) : List Str := host.tools_.map McpToolSpec.name

/-- The name under which a server's tool is registered. -/
def full_name (prefix_ name : Str) : Str :=
  if prefix_.isEmpty then name else prefix_ ++ "__" ++ name

def register_remote_tool (spec : McpToolSpec) (prefix_ : Str) (client : ℕ) (host : McpHost W U) :
    McpHost W U :=
  if spec.name.isEmpty then host
  else
    let full_name := full_name prefix_ spec.name
    { host with
      tools_ := host.tools_ ++ [{ spec with name := full_name }]
      registry := host.registry.register_tool
        (some (McpTool T P library full_name (some client) prefix_)) }

/-- The spec that an entry of `tools` gives. -/
def readSpec (t : Json) : Except Exn McpToolSpec := do
  let name ← t.value Json.getString "name" ""
  let description ← t.value Json.getString "description" ""
  let schema ← t.value .ok "inputSchema" (.object [])
  pure { name := name, description := description, schema := schema }

def register_entries (prefix_ : Str) (client : ℕ) : List Json → HostM W U Unit
  | [] => pure ()
  | t :: entries => do
    let spec ← Prog.ofExcept (readSpec t)
    Prog.step fun s =>
      ((), { s with host := s.host.register_remote_tool T P library spec prefix_ client })
    register_entries prefix_ client entries

def register_tools_from_payload (payload : Json) (prefix_ : Str) (client : ℕ) : HostM W U Unit :=
  match payload.field? "tools" with
  | some (.array entries) => register_entries T P library prefix_ client entries
  | _ => pure ()

/-- What a client does in the world of the host. -/
def withClient (c : ℕ) (x : JsonRpcTransport W → Prog Exn (JsonRpcClient W) α) : HostM W U α :=
  Prog.of fun s =>
    let r := s.world.onClient P c x
    (r.1, { s with world := r.2 })

def init_params : Json :=
  .ofFields
    [("protocolVersion", .string "2024-11-05"), ("capabilities", .object []),
      ("clientInfo", .ofFields [("name", .string "praxis"), ("version", .string "0.1.0")])]

def perform_mcp_handshake (c : ℕ) : HostM W U Unit := do
  let _ ← withClient P c fun P => JsonRpcClient.call T P "initialize" init_params
  withClient P c fun P => JsonRpcClient.notify T P "notifications/initialized" (.object [])

/-- `attach` up to the answer to `tools/list`: the client and what its server lists. -/
def connect (transport : ℕ) : HostM W U (ℕ × Json) := do
  let client ← Prog.step fun s =>
    let made := s.world.make_client transport
    (made.1, { host := { s.host with clients_ := s.host.clients_ ++ [made.1] }, world := made.2 })
  perform_mcp_handshake T P client
  let payload ← withClient P client fun P => JsonRpcClient.call T P "tools/list" (.object [])
  pure (client, payload)

def attach (transport : Option ℕ) (prefix_ : Str) : HostM W U Unit :=
  match transport with
  | none => Prog.ofExcept (.error (.user "attach: transport is null"))
  | some transport => do
    let (client, payload) ← connect T P transport
    register_tools_from_payload T P library payload prefix_ client

end McpHost

end Praxis
