import Praxis.Json

/-!
# Events and counters

`Replay` keeps the events of an orchestrator and hands each to the sinks. What providers and sinks
do outside the engine is a change of an environment `E`.
-/

namespace Praxis

inductive EventKind
  | TurnStarted | ModelRequested | ModelResponded | ToolCalled | ToolFinished
  | WorkingSetRendered | FactRecalled | CacheHit | CacheInvalidated | ProgressScored
  | StrategySwitched | Degraded | BudgetHit | TaskEnded
  deriving DecidableEq, Inhabited

structure Event where
  kind : EventKind := .TurnStarted
  sequence : UInt64 := 0
  payload : Json := .object []
  deriving DecidableEq, Inhabited

/-- An `EventSink`: what `on_event` does, and whether it throws. -/
structure EventSink (E : Type) where
  on_event : Event → E → Except Exn Unit × E

structure CausalEdge where
  from_ : UInt64 := 0
  to_ : UInt64 := 0
  deriving DecidableEq

structure Replay (E : Type) where
  events : List Event := []
  edges : List CausalEdge := []
  sinks : List (EventSink E) := []
  last_seq : UInt64 := 0

namespace Replay

variable {E : Type}

/-- Hands an event to the sinks, up to the first that throws. -/
def notify (e : Event) : List (EventSink E) → E → Except Exn Unit × E
  | [], env => (.ok (), env)
  | sink :: sinks, env =>
    match sink.on_event e env with
    | (.ok _, env') => notify e sinks env'
    | (.error err, env') => (.error err, env')

/-- The event as it is stored: without a sequence number it gets the next one. -/
def numbered (replay : Replay E) (event : Event) : Event :=
  if event.sequence = 0 then { event with sequence := replay.last_seq + 1 } else event

/-- The event is stored before any sink sees it. -/
def push (replay : Replay E) (event : Event) : Replay E :=
  let e := replay.numbered event
  { replay with
    events := replay.events ++ [e]
    last_seq := if event.sequence = 0 then e.sequence else max replay.last_seq e.sequence }

def record (replay : Replay E) (event : Event) (env : E) : Except Exn Unit × Replay E × E :=
  let notified := notify (replay.numbered event) replay.sinks env
  (notified.1, replay.push event, notified.2)

/-- No sink throws. -/
def Quiet (replay : Replay E) : Prop :=
  ∀ sink ∈ replay.sinks, ∀ e env, (sink.on_event e env).1 = .ok ()

theorem notify_ok {e : Event} :
    ∀ {sinks : List (EventSink E)}, (∀ sink ∈ sinks, ∀ e env, (sink.on_event e env).1 = .ok ()) →
      ∀ env, (notify e sinks env).1 = .ok ()
  | [], _, _ => rfl
  | sink :: sinks, h, env => by
    have hsink := h sink List.mem_cons_self e env
    have hrest := notify_ok (e := e) (fun s hs => h s (List.mem_cons_of_mem _ hs))
      (sink.on_event e env).2
    rw [notify, ← Prod.mk.eta (p := sink.on_event e env), hsink]
    exact hrest

theorem record_ok {replay : Replay E} (h : replay.Quiet) (event : Event) (env : E) :
    (replay.record event env).1 = .ok () := notify_ok h env

section Passive

variable {V : Type} {view : E → V}

/-- The sinks neither throw nor change what `view` shows of the environment. -/
def Passive (view : E → V) (replay : Replay E) : Prop :=
  ∀ sink ∈ replay.sinks, ∀ e env,
    (sink.on_event e env).1 = .ok () ∧ view (sink.on_event e env).2 = view env

theorem Passive.quiet {replay : Replay E} (h : replay.Passive view) : replay.Quiet :=
  fun sink hsink e env => (h sink hsink e env).1

theorem notify_view {e : Event} :
    ∀ {sinks : List (EventSink E)},
      (∀ sink ∈ sinks, ∀ e env,
        (sink.on_event e env).1 = .ok () ∧ view (sink.on_event e env).2 = view env) →
      ∀ env, view (notify e sinks env).2 = view env
  | [], _, _ => rfl
  | sink :: sinks, h, env => by
    obtain ⟨hok, hview⟩ := h sink List.mem_cons_self e env
    have hrest := notify_view (e := e) (fun s hs => h s (List.mem_cons_of_mem _ hs))
      (sink.on_event e env).2
    rw [notify, ← Prod.mk.eta (p := sink.on_event e env), hok]
    exact hrest.trans hview

theorem record_view {replay : Replay E} (h : replay.Passive view) (event : Event) (env : E) :
    view (replay.record event env).2.2 = view env := notify_view h env

end Passive

def subscribe (replay : Replay E) (sink : EventSink E) : Replay E :=
  { replay with sinks := replay.sinks ++ [sink] }

def link (replay : Replay E) (from_ to_ : UInt64) : Replay E :=
  { replay with edges := replay.edges ++ [{ from_ := from_, to_ := to_ }] }

/-- Hands events to a sink, up to the first at which it throws. -/
def feed {F : Type} (sink : EventSink F) : List Event → F → Except Exn Unit × F
  | [], env => (.ok (), env)
  | e :: events, env =>
    match sink.on_event e env with
    | (.ok _, env') => feed sink events env'
    | (.error err, env') => (.error err, env')

def replay_into {F : Type} (replay : Replay E) (sink : EventSink F) (env : F) :
    Except Exn Unit × F := feed sink replay.events env

end Replay

/-- The counters of `Telemetry`. -/
structure Telemetry where
  prompt_tokens : UInt64 := 0
  completion_tokens : UInt64 := 0
  cache_hits : UInt64 := 0
  cache_misses : UInt64 := 0
  tool_success : UInt64 := 0
  tool_failures : UInt64 := 0
  deriving DecidableEq

namespace Telemetry

def record_token (t : Telemetry) (prompt completion : UInt32) : Telemetry :=
  { t with
    prompt_tokens := t.prompt_tokens + prompt.toUInt64
    completion_tokens := t.completion_tokens + completion.toUInt64 }

def record_cache_hit (t : Telemetry) (hit : Bool) : Telemetry :=
  if hit then { t with cache_hits := t.cache_hits + 1 }
  else { t with cache_misses := t.cache_misses + 1 }

def record_tool_call (t : Telemetry) (success : Bool) : Telemetry :=
  if success then { t with tool_success := t.tool_success + 1 }
  else { t with tool_failures := t.tool_failures + 1 }

end Telemetry

end Praxis
