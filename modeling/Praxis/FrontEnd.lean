import Praxis.Metrics
import Praxis.Observers
import Praxis.Url
import Praxis.Web

/-!
# The ways into the engine

The command line, the web panel and the Python engine each set up an orchestrator and run a task.
The HTTP client of a provider is a function of the base URL, the path and the body; the panel's
server is left out, but for what it does with a request to run a task.
-/

namespace Praxis

open Effect (Prog)

variable {W U H : Type}

/-- The options that the command line sets. -/
structure CliSettings extends CliOptions where
  task : Str := []
  provider_name : Str := "fake"
  model : Str := "gpt-4o-mini"
  api_key : Str := []
  api_base : Str := []
  budget_turns : UInt32 := 32
  use_web : Bool := false
  web_port : ℤ := 8080
  web_host : Str := "127.0.0.1"
  web_user := []
  web_pass := []
  verbose : Bool := false

/-- How `parse_cli` may end but by returning the options. -/
inductive CliExit
  /-- The usage is printed, and the process exits with 0. -/
  | help
  | thrown (error : UrlError)
  deriving DecidableEq

/-- `std::stoi`, whose exceptions leave `parse_cli`. -/
def CliExit.stoi (value : Str) : Except CliExit ℤ := (Praxis.stoi value).mapError .thrown

/-- What an argument sets that takes the next one as its value, if it is one. -/
def parse_cli.valued (arg value : Str) (opts : CliSettings) : Option (Except CliExit CliSettings) :=
  if arg = lit "--provider" then some (pure { opts with provider_name := value })
  else if arg = lit "--model" then some (pure { opts with model := value })
  else if arg = lit "--api-key" then some (pure { opts with api_key := value })
  else if arg = lit "--api-base" then some (pure { opts with api_base := value })
  else if arg = lit "--budget" then
    some do
      let turns ← CliExit.stoi value
      pure { opts with budget_turns := UInt32.ofInt turns }
  else if arg = lit "--port" then
    some do
      let port ← CliExit.stoi value
      pure { opts with web_port := port }
  else if arg = lit "--web-host" then some (pure { opts with web_host := value })
  else if arg = lit "--web-user" then some (pure { opts with web_user := value })
  else if arg = lit "--web-pass" then some (pure { opts with web_pass := value })
  else none

/-- An argument that stands alone. What starts with a dash and is none of these is skipped. -/
def parse_cli.alone (arg : Str) (opts : CliSettings) : Except CliExit CliSettings :=
  if arg = lit "--web" then pure { opts with use_web := true }
  else if arg = lit "--verbose" ∨ arg = lit "-v" then pure { opts with verbose := true }
  else if arg = lit "--help" ∨ arg = lit "-h" then throw .help
  else if arg.head? ≠ some 45 then
    pure { opts with task := (if opts.task.isEmpty then [] else opts.task ++ lit " ") ++ arg }
  else pure opts

/-- The loop of `parse_cli`; a last argument has no value. -/
def parse_cli.loop : List Str → CliSettings → Except CliExit CliSettings
  | [], opts => pure opts
  | [arg], opts => parse_cli.alone arg opts
  | arg :: value :: args, opts =>
    match parse_cli.valued arg value opts with
    | some read => do
      let opts ← read
      parse_cli.loop args opts
    | none => do
      let opts ← parse_cli.alone arg opts
      parse_cli.loop (value :: args) opts

/-- The first argument is the program's name. -/
def parse_cli (argv : List Str) : Except CliExit CliSettings := parse_cli.loop argv.tail {}

example : (parse_cli ["praxis", "sum", "--budget", "8", "up"]).map
      (fun opts => (opts.task, opts.budget_turns))
    = .ok ("sum up", 8) := by decide

def rtrim_slashes (s : Str) : Str := (s.reverse.dropWhile (· == 47)).reverse

def OpenAIProvider.strip_trailing_v1 (url : Str) : Str :=
  let trimmed := rtrim_slashes url
  if lit "/v1" <:+ trimmed then rtrim_slashes (trimmed.take (trimmed.length - 3)) else url

/-- The HTTP client: the status and the body of the reply to a request, if one comes. -/
abbrev HttpPost (H : Type) := Str → Str → Str → H → Option (ℕ × Str) × H

/-- The reply that the fake provider is given as its script. -/
def doneStep : Json := .ofFields [("plan", .string "DONE"), ("tool_calls", .array [])]

/-- The fake provider before its first request. -/
def FakeProvider.ofDone : FakeProvider := { steps := [doneStep] }

/-- The fake provider is a part of the environment, next to what the HTTP client acts on. Every name
but one stands for it. -/
def make_provider (T : JsonText) (http : HttpPost H) (name model api_base : Str) :
    Provider (FakeProvider × H) :=
  if name = lit "openai" then
    let base : Str := if api_base.isEmpty then "https://api.openai.com/v1" else api_base
    let provider : OpenAIProvider := { model := model, path := "/chat/completions" }
    ⟨fun context env =>
      let done := provider.complete T (http (OpenAIProvider.strip_trailing_v1 base)) context env.2
      (done.1, env.1, done.2)⟩
  else
    ⟨fun context env =>
      let done := FakeProvider.complete context env.1
      (done.1, done.2, env.2)⟩

def make_provider_from_cli (T : JsonText) (http : HttpPost H) (opts : CliSettings) :
    Provider (FakeProvider × H) :=
  make_provider T http opts.provider_name opts.model opts.api_base

/-- What the process prints, and its exit code. -/
structure Console where
  exit_code : ℤ
  out : Str := []
  err : Str := []
  deriving DecidableEq

/-- An orchestrator around the provider, with the built-in tools. -/
def freshOrchestrator {E : Type} (M : Machine W U) (provider : Provider E) : Orchestrator W U E :=
  (Orchestrator.ofProvider provider {}).register_builtin M.text M.platform none

/-- What is printed of a result. -/
def printed (r : RunResult) : Str :=
  lit "turns: " ++ decimal r.turns.toNat ++ lit " completed: "
    ++ (if r.completed then lit "yes" else lit "no")
    ++ (if r.bounded then lit " bounded: yes" else []) ++ lit "\n"
    ++ (if r.final_output.isEmpty then [] else lit "output: " ++ r.final_output ++ lit "\n")

/-- The system in which a task is run. -/
def cliStart (M : Machine W U) (http : HttpPost H) (opts : CliSettings) (world : W) (client : H) :
    Sys W U (FakeProvider × H) where
  self := freshOrchestrator M (make_provider_from_cli M.text http opts)
  world := world
  env := (FakeProvider.ofDone, client)

def cliBudget (opts : CliSettings) : Budget where
  max_turns := opts.budget_turns
  active := true

/-- What the telemetry reports after a run of `wall_ms`. -/
def telemetry_report (counters : Telemetry) (wall_ms : ℚ) : Json :=
  (Metrics.set_wall_clock_ms { counters := counters } wall_ms).report

/-- The run of `run_cli`. -/
def cliRun (M : Machine W U) (http : HttpPost H) (opts : CliSettings) (world : W) (client : H) :
    Except Exn (Result RunResult) × Sys W U (FakeProvider × H) :=
  (Orchestrator.run M opts.task (cliBudget opts)).exec (cliStart M http opts world client)

/-- What a run that returns puts on the console. `pretty` is `dump` with an indentation. -/
def consoleOf (pretty : Json → Str) (opts : CliSettings) (wall_ms : ℚ) (counters : Telemetry) :
    Result RunResult → Console
  | .error err => { exit_code := 1, err := lit "error: " ++ err.message ++ "\n" }
  | .ok r =>
    let report := if opts.verbose then
      pretty (telemetry_report counters wall_ms) ++ lit "\n" else []
    { exit_code := 0, out := printed r ++ report }

/-- `wall_ms` is how long the run takes. -/
def run_cli (M : Machine W U) (http : HttpPost H) (pretty : Json → Str) (opts : CliSettings)
    (wall_ms : ℚ) (world : W) (client : H) : Except Exn Console × Sys W U (FakeProvider × H) :=
  let ran := cliRun M http opts world client
  (ran.1.map (consoleOf pretty opts wall_ms ran.2.self.telemetry), ran.2)

/-! ## The web panel -/

/-- A request with a body. -/
structure PostRequest extends Request where
  body : Str

structure Response where
  status : ℕ := 200
  www_authenticate : Option Str := none
  content : Str
  content_type : Str
  deriving DecidableEq

/-- `static_cast<int>` of an event's kind. -/
def EventKind.toNat : EventKind → ℕ
  | TurnStarted => 0
  | ModelRequested => 1
  | ModelResponded => 2
  | ToolCalled => 3
  | ToolFinished => 4
  | WorkingSetRendered => 5
  | FactRecalled => 6
  | CacheHit => 7
  | CacheInvalidated => 8
  | ProgressScored => 9
  | StrategySwitched => 10
  | Degraded => 11
  | BudgetHit => 12
  | TaskEnded => 13

/-- What the sink writes of an event before its payload. -/
def ConsoleSink.head (event : Event) : Str :=
  lit "\x7b\"seq\":" ++ decimal event.sequence.toNat ++ ",\"kind\":" ++ decimal event.kind.toNat
    ++ ",\"payload\":"

/-- The panel's sink writes to a stream. A payload that cannot be written leaves a line
unfinished. -/
def ConsoleSink (T : JsonText) : EventSink Str where
  on_event := fun event stream =>
    let stream := stream ++ ConsoleSink.head event
    match T.dump event.payload with
    | .error e => (.error e, stream)
    | .ok payload => (.ok (), stream ++ payload ++ "\x7d\n")

/-- The fields of the answer to a request that has run a task. -/
def run_fields (r : Result RunResult) (telemetry : Telemetry) (wall_ms : ℚ) (events : Str) :
    Json :=
  let outcome : List (Str × Json) := match r with
    | .ok result =>
      [("final_output", .string result.final_output),
        ("turns", .number_unsigned result.turns.toNat), ("completed", .boolean result.completed)]
    | .error err => [("error", .string err.message)]
  .ofFields (outcome ++
    [(lit "telemetry", telemetry_report telemetry wall_ms), (lit "events", .string events)])

def unauthorized : Response where
  status := 401
  www_authenticate := some "Basic realm=\"praxis\""
  content := "authentication required"
  content_type := "text/plain"

def bad_request (content : Str) : Response where
  status := 400
  content := content
  content_type := "text/plain"

/-- The settings of a request: those of the panel with the task, the provider and the budget of the
body. -/
def run_settings (opts : CliSettings) (body : Json) : Except Exn CliSettings := do
  let task ← body.value Json.getString "task" []
  let provider_name ← body.value Json.getString "provider" "fake"
  let budget_turns ← body.value Json.getUInt32 "budget_turns" 8
  pure { opts with task := task, provider_name := provider_name, budget_turns := budget_turns }

/-- The system in which the task of a request is run, with the panel's sink. -/
def panelStart (M : Machine W U) (http : HttpPost H) (opts : CliSettings) (world : W) (client : H) :
    Sys W U ((FakeProvider × H) × Str) where
  self := (freshOrchestrator M (make_provider_from_cli M.text http opts).beside).attach_observer
    (ConsoleSink M.text).above
  world := world
  env := ((FakeProvider.ofDone, client), [])

/-- The handler of `POST /run`; an exception leaves it. A run takes `wall_ms`. The system is that of
the run, if there was one. -/
def post_run (M : Machine W U) (http : HttpPost H) (opts : CliSettings) (req : PostRequest)
    (wall_ms : ℚ) (world : W) (client : H) :
    Except Exn Response × Option (Sys W U ((FakeProvider × H) × Str)) :=
  if !check_auth opts.toCliOptions req.toRequest then (.ok unauthorized, none)
  else
    match M.text.parse req.body with
    | some (.object fields) =>
      match run_settings opts (.object fields) with
      | .error e => (.error e, none)
      | .ok settings =>
        if settings.task.isEmpty then (.ok (bad_request "missing task"), none)
        else
          match (Orchestrator.run M settings.task (cliBudget settings)).exec
            (panelStart M http settings world client) with
          | (.error e, s) => (.error e, some s)
          | (.ok r, s) =>
            match M.text.dump (run_fields r s.self.telemetry wall_ms s.env.2) with
            | .error e => (.error e, some s)
            | .ok content =>
              (.ok { content := content, content_type := "application/json" }, some s)
    | _ => (.ok (bad_request "invalid json"), none)

/-! ## The Python engine -/

/-- An engine in its surroundings. -/
structure Engine (W U H : Type) where
  sys : Sys W U (FakeProvider × H)
  budget_turns : UInt32

namespace Engine

def new (M : Machine W U) (http : HttpPost H) (provider model api_base : Str)
    (budget_turns : UInt32) (world : W) (client : H) : Engine W U H where
  sys :=
    { self := freshOrchestrator M (make_provider M.text http provider model api_base)
      world := world
      env := (FakeProvider.ofDone, client) }
  budget_turns := budget_turns

/-- A limit of 0 stands for the engine's own. -/
def max_turns (engine : Engine W U H) (max_turns : UInt32) : UInt32 :=
  if 0 < max_turns then max_turns else engine.budget_turns

/-- A failed run is thrown. -/
def run (M : Machine W U) (engine : Engine W U H) (task : Str) (max_turns : UInt32) :
    Except Exn RunResult × Engine W U H :=
  match (Orchestrator.run M task { max_turns := engine.max_turns max_turns, active := true }).exec
    engine.sys with
  | (.error e, sys) => (.error e, { engine with sys := sys })
  | (.ok (.error err), sys) => (.error (.user err.message), { engine with sys := sys })
  | (.ok (.ok r), sys) => (.ok r, { engine with sys := sys })

end Engine

end Praxis
