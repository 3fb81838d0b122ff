import Praxis.Builtin
import Praxis.Cache
import Praxis.Provider
import Praxis.Replay
import Praxis.SideEffect
import Praxis.Lib.Effect

/-!
# The orchestrator

`run` asks the chore model for a plan, has the decision model review it, executes the tool calls of
the plan that the cache cannot answer, and goes on with the results until the model proposes no
more calls or the budget is spent. Its body is cut here at the comments of the source. The wall
clock is left out.
-/

namespace Praxis

open Effect (Prog)
open Interleave (Scheduler)

structure RunResult where
  completed : Bool := false
  bounded : Bool := false
  bounded_reason : Str := []
  turns : UInt32 := 0
  cost : ℚ := 0
  final_output : Str := []
  deriving DecidableEq

structure OrchestratorOptions where
  token_budget : ℕ := 8192
  pricing : PricingConfig := {}
  side_effect_root : Str := []
  cache_tools : Bool := true
  retry_policy : RetryPolicy := {}
  deriving DecidableEq

/-- The router maps a tier to a `RetryingProvider` by its position in `retrying`, so that two tiers
can share one. -/
structure Orchestrator (W U E : Type) where
  options : OrchestratorOptions
  retrying : List (RetryingProvider E) := []
  router : AList fun _ : Tier => ℕ := ∅
  registry : ToolRegistry W U := {}
  executor : ToolExecutor := {}
  context : ContextManager
  cache : Cache := {}
  cascade : ModelCascade := {}
  replay : Replay E := {}
  telemetry : Telemetry := {}
  side_effects : SideEffectObserver := {}
  tool_ctx : Option (Ctx U) := none

/-- What the engine runs on: the JSON text library, the operating system with the user's contexts,
and the way the workers of a group interleave. -/
structure Machine (W U : Type) where
  text : JsonText
  platform : Platform W U
  scheduler : Scheduler ℕ W (Except Exn ToolExecutionRecord)

/-- An orchestrator in its surroundings. `ledger` collects the tool records of all turns, which the
source keeps turn by turn in a local variable. -/
structure Sys (W U E : Type) where
  self : Orchestrator W U E
  world : W
  env : E
  ledger : List ToolExecutionRecord := []

abbrev RunM (W U E : Type) := Prog Exn (Sys W U E)

variable {W U E : Type}

def canonicalize_arguments (T : JsonText) : Json → Except Exn Str
  | .string s => pure s
  | .object fields => T.dump (.object fields)
  | .array elems => T.dump (.array elems)
  | _ => pure "\x7b\x7d"

/-- The loop of `extract_tool_calls`. -/
def extractFrom (T : JsonText) : ℕ → List Json → Except Exn (List ToolCall)
  | _, [] => pure []
  | ordinal, tc :: entries => do
    let name ← tc.value Json.getString "name" []
    let args_raw ← tc.value .ok "arguments" (.object [])
    let arguments ← canonicalize_arguments T args_raw
    let calls ← extractFrom T (ordinal + 1) entries
    if name.isEmpty then pure calls
    else pure ({ name := name, arguments := arguments, ordinal := ordinal } :: calls)

def extract_tool_calls (T : JsonText) (raw : Json) : Except Exn (List ToolCall) :=
  match raw.field? "tool_calls" with
  | some (.array entries) => extractFrom T 0 entries
  | _ => pure []

def trim_for_log (s : Str) : Str := if s.length ≤ 80 then s else s.take 80 ++ "..."

namespace Orchestrator

/-- One retrying wrapper around the provider serves both tiers. -/
def ofProvider (provider : Provider E) (options : OrchestratorOptions) : Orchestrator W U E where
  options := options
  retrying := [{ inner := some provider, policy := options.retry_policy }]
  router := ((∅ : AList fun _ : Tier => ℕ).insert .Small 0).insert .Large 0
  context := .new options.token_budget

/-- The constructor from a `ProviderRouter` does not read the router. -/
def ofRouter (options : OrchestratorOptions) : Orchestrator W U E where
  options := options
  context := .new options.token_budget

/-- The two ways to construct an orchestrator. -/
inductive Source (E : Type)
  | provider (provider : Provider E)
  | router

def construct (options : OrchestratorOptions) : Source E → Orchestrator W U E
  | .provider provider => ofProvider provider options
  | .router => ofRouter options

def set_provider (self : Orchestrator W U E) (tier : Tier) : Option (Provider E) →
    Orchestrator W U E
  | none => self
  | some provider =>
    { self with
      retrying := self.retrying ++
        [{ inner := some provider, policy := self.options.retry_policy }]
      router := self.router.insert tier self.retrying.length }

/-- The context becomes the orchestrator's own only if there is one. -/
def register_builtin (T : JsonText) (P : Platform W U) (self : Orchestrator W U E)
    (ctx : Option (Ctx U)) : Orchestrator W U E :=
  let tool_ctx := match ctx with
    | some c => some c
    | none => self.tool_ctx
  { self with
    tool_ctx := tool_ctx
    registry := register_builtin_tools T P self.registry tool_ctx }

def register_tool (self : Orchestrator W U E) (tool : Option (Tool W U)) : Orchestrator W U E :=
  { self with registry := self.registry.register_tool tool }

def attach_observer (self : Orchestrator W U E) (sink : EventSink E) : Orchestrator W U E :=
  { self with replay := self.replay.subscribe sink }

def set_executor_parallel (self : Orchestrator W U E) (parallel : Bool) : Orchestrator W U E :=
  let executor := self.executor
  { self with executor := { executor with parallel_safe := parallel } }

def invalidate_cache_dependency (self : Orchestrator W U E) (dep : Str) : Orchestrator W U E :=
  { self with cache := self.cache.invalidate_dependency dep }

/-! ## Parts of `run` -/

/-- A call as the cache sees it. -/
structure CallView where
  name : Str
  args : Str
  dependencies : List Str
  deriving DecidableEq

/-- The dependencies of a call are those its tool declares for all its calls. -/
def callView (registry : ToolRegistry W U) (call : ToolCall) : CallView where
  name := call.name
  args := call.arguments
  dependencies := match registry.find call.name with
    | some tool => tool.descriptor.declared_resources
    | none => []

def build_call_views (registry : ToolRegistry W U) (calls : List ToolCall) : List CallView :=
  calls.map (callView registry)

def cache_key (view : CallView) : Str := view.name ++ "|" ++ view.args

/-- The reason to stop, if the cost has reached the limit of an active budget. -/
def budget_exhausted (budget : Budget) (cost : ℚ) : Option Str :=
  if !budget.active then none
  else if 0 < budget.max_cost ∧ budget.max_cost ≤ cost then some "max_cost"
  else none

/-- Changes the orchestrator alone. -/
def modifySelf (f : Orchestrator W U E → Orchestrator W U E) : RunM W U E Unit :=
  .step fun s => ((), { s with self := f s.self })

@[simp] theorem exec_modifySelf (f : Orchestrator W U E → Orchestrator W U E) (s : Sys W U E) :
    (modifySelf f).exec s = (.ok (), { s with self := f s.self }) := rfl

/-- `replay_.record`. -/
def record (kind : EventKind) (payload : List (Str × Json)) : RunM W U E Unit :=
  .of fun s =>
    let recorded := s.self.replay.record { kind := kind, payload := .ofFields payload } s.env
    let self := s.self
    (recorded.1, { s with self := { self with replay := recorded.2.1 }, env := recorded.2.2 })

/-- The provider that serves a tier, with its position. -/
def for_tier (self : Orchestrator W U E) (tier : Tier) : Option (ℕ × RetryingProvider E) :=
  (self.router.lookup tier).bind fun i => (self.retrying[i]?).map fun p => (i, p)

theorem getElem?_of_for_tier {self : Orchestrator W U E} {tier : Tier} {i : ℕ}
    {provider : RetryingProvider E} (h : self.for_tier tier = some (i, provider)) :
    self.retrying[i]? = some provider := by
  obtain ⟨j, -, h⟩ := Option.bind_eq_some_iff.1 h
  obtain ⟨q, hq, h⟩ := Option.map_eq_some_iff.1 h
  obtain ⟨rfl, rfl⟩ := Prod.mk.inj h
  exact hq

def complete_for (role : Role) (messages : Messages) : RunM W U E (Result ModelResponse) :=
  .of fun s =>
    let tier := s.self.cascade.route_for role
    match s.self.for_tier tier with
    | none =>
      (.ok (.error
        { kind := .Internal, message := "no provider for tier " ++ decimal tier.toNat }), s)
    | some (i, provider) =>
      let completed := provider.complete messages s.env
      let self := s.self
      (completed.1,
        { s with
          self := { self with retrying := self.retrying.set i completed.2.1 }
          env := completed.2.2 })

def observe_outcome (tier : Tier) (result : Result ModelResponse) (self : Orchestrator W U E) :
    Orchestrator W U E :=
  { self with
    cascade := match result with
      | .error _ => self.cascade.record_failure tier
      | .ok resp =>
        self.cascade.record_outcome tier (resp.outcome.plan.isEmpty && resp.outcome.has_tool_use) }

def record_failure (tier : Tier) (self : Orchestrator W U E) : Orchestrator W U E :=
  { self with cascade := self.cascade.record_failure tier }

/-- A completion for the role, counted for the tier; `route_for` is asked for the chore's tier only
after the completion, but the cascade has not changed by then. -/
def complete_and_observe (role : Role) (messages : Messages) :
    RunM W U E (Tier × Result ModelResponse) := do
  let tier ← Prog.step fun s => (s.self.cascade.route_for role, s)
  let response ← complete_for role messages
  modifySelf (observe_outcome tier response)
  pure (tier, response)

/-- The tokens of a response are counted; what they cost is returned. -/
def account (raw : Json) : RunM W U E ℚ :=
  match raw.field? "usage" with
  | none => pure 0
  | some usage => do
    let prompt ← Prog.ofExcept (usage.value Json.getUInt32 "prompt_tokens" 0)
    let completion ← Prog.ofExcept (usage.value Json.getUInt32 "completion_tokens" 0)
    Prog.step fun s =>
      let self := s.self
      let pricing := self.options.pricing
      ((prompt.toNat : ℚ) / 1000 * pricing.prompt_per_1k
          + (completion.toNat : ℚ) / 1000 * pricing.completion_per_1k,
        { s with
          self := { self with telemetry := self.telemetry.record_token prompt completion } })

def reviewMessage (plan : Str) (count : ℕ) : Message where
  role := "user"
  content := "Decision review: the chore-tier model proposed the plan '" ++ trim_for_log plan
    ++ "' with " ++ decimal count ++ " tool calls. Reply with either 'CONFIRM' to keep the "
    ++ "plan, or 'OVERRIDE: <new plan>' to change it. Empty plan "
    ++ "is treated as an override to halt tool use."

/-- The plan that overrides the chore's, if the decision model gave one. -/
def overridePlan (dplan : Str) : Option Str :=
  if !dplan.isEmpty && dplan != "CONFIRM" && starts_with "OVERRIDE:" dplan then
    some ((dplan.drop (lit "OVERRIDE:").length).dropWhile fun c => c == 32 || c == 9)
  else none

/-- What the review leaves of a turn: calls to run, or the output that ends the run. -/
inductive Review
  | run (calls : List ToolCall)
  | ended (final_output : Str)
  deriving DecidableEq

def decision_review (turn : UInt32) (messages : Messages) (plan : Str) (calls : List ToolCall) :
    RunM W U E Review := do
  let (decision_tier, response) ←
    complete_and_observe .Decision (messages ++ [reviewMessage plan calls.length])
  match response with
  | .error _ => do
    modifySelf (record_failure decision_tier)
    pure (.run calls)
  | .ok resp =>
    match overridePlan resp.outcome.plan with
    | none => pure (.run calls)
    | some override_plan => do
      record .Degraded [("decision_override", .string override_plan)]
      modifySelf fun self =>
        { self with cascade := self.cascade.record_outcome decision_tier true }
      if calls.isEmpty then do
        record .TaskEnded [("turn", .number_unsigned turn.toNat)]
        pure (.ended override_plan)
      else pure (.run [])

/-- The cached output for a call, if `run` may use one. -/
def lookup_call (view : CallView) : RunM W U E (Option Json) := do
  let cached ← Prog.step fun s =>
    let self := s.self
    let got := self.cache.get (cache_key view) view.dependencies
    (if self.options.cache_tools then got.1 else none,
      { s with self := { self with cache := got.2 } })
  modifySelf fun self =>
    { self with telemetry := self.telemetry.record_cache_hit cached.isSome }
  if cached.isSome then
    record .CacheHit [("tool", .string view.name), ("key", .string (cache_key view))]
  pure cached

/-- The lookup loop from index `i` on: the calls to execute, and the cached outputs by index. -/
def lookup_calls : ℕ → List (ToolCall × CallView) → RunM W U E (List ToolCall × List (ℕ × Json))
  | _, [] => pure ([], [])
  | i, (call, view) :: rest => do
    let cached ← lookup_call view
    let found ← lookup_calls (i + 1) rest
    match cached with
    | some output => pure (found.1, (i, output) :: found.2)
    | none => pure (call :: found.1, found.2)

/-- Execute only the cache misses. -/
def execute_pending (M : Machine W U) (pending : List ToolCall) :
    RunM W U E (List ToolExecutionRecord) :=
  if pending.isEmpty then pure []
  else .of fun s =>
    let self := s.self
    let executed := self.executor.execute M.scheduler M.platform self.registry pending self.tool_ctx
      s.world
    (executed.1, { s with self := { self with executor := executed.2.1 }, world := executed.2.2 })

/-- The index of the first call with that ordinal, 0 if there is none. -/
def originalIndex (calls : List ToolCall) (ordinal : ℕ) : ℕ :=
  (calls.findIdx? fun c => c.ordinal == ordinal).getD 0

/-- The record of a cache hit. -/
def hitRecord (call : ToolCall) (cached : Json) : ToolExecutionRecord where
  ordinal := call.ordinal
  tool_name := call.name
  arguments := call.arguments
  result := { ok := true, output := cached }
  from_cache := true

/-- `executed[k]` goes where the call `pending[k]` stood, then the cached results go where theirs
did. -/
def splice (calls pending : List ToolCall) (executed : List ToolExecutionRecord)
    (hits : List (ℕ × Json)) : List ToolExecutionRecord :=
  let records := (pending.zip executed).foldl
    (fun records pe => records.set (originalIndex calls pe.1.ordinal) pe.2)
    (List.replicate calls.length {})
  hits.foldl (fun records hit => records.set hit.1 (hitRecord (calls.getD hit.1 {}) hit.2)) records

/-- The records of a turn's calls. -/
def run_calls (M : Machine W U) (calls : List ToolCall) (views : List CallView) :
    RunM W U E (List ToolExecutionRecord) := do
  let found ← lookup_calls 0 (calls.zip views)
  let executed ← execute_pending M found.1
  let records := splice calls found.1 executed found.2
  Prog.step fun s => (records, { s with ledger := s.ledger ++ records })

/-- Populate the cache so the next turn can hit it. -/
def cache_result (views : List CallView) (rec : ToolExecutionRecord) (self : Orchestrator W U E) :
    Orchestrator W U E :=
  if rec.result.ok && self.options.cache_tools then
    match views.find? fun v => v.name == rec.tool_name && v.args == rec.arguments with
    | some view =>
      { self with
        cache := self.cache.put (cache_key view) rec.result.output view.dependencies
          self.options.cache_tools }
    | none => self
  else self

/-- What the model is told of a record. -/
def resultBody (T : JsonText) (rec : ToolExecutionRecord) : Except Exn Str :=
  if rec.result.output = .null then pure rec.result.error_message else T.dump rec.result.output

def toolMessage (rec : ToolExecutionRecord) (body : Str) : Message where
  role := "tool"
  content := body
  tool_calls := some <| .ofFields
    [("name", .string rec.tool_name), ("ok", .boolean rec.result.ok),
      ("from_cache", .boolean rec.from_cache)]

/-- The body is stored as a fact and merged into the digest; the fact's id is returned. -/
def store_result (T : JsonText) (body : Str) : RunM W U E Str :=
  .step fun s =>
    let self := s.self
    let context := self.context
    let appended := context.store.append "tool_result" body
    (appended.1,
      { s with
        self := { self with
          context := ContextManager.record_tool_result T { context with store := appended.2 }
            appended.1 } })

/-- One round of the loop over the records. -/
def record_result (M : Machine W U) (chosen_tier : Tier) (views : List CallView)
    (rec : ToolExecutionRecord) : RunM W U E (Str × Message) := do
  modifySelf fun self =>
    { self with telemetry := self.telemetry.record_tool_call rec.result.ok }
  record .ToolFinished [("tool", .string rec.tool_name), ("ok", .boolean rec.result.ok)]
  modifySelf fun self => if rec.result.ok then self else record_failure chosen_tier self
  modifySelf (cache_result views rec)
  let body ← Prog.ofExcept (resultBody M.text rec)
  let fact_id ← store_result M.text body
  pure (fact_id, toolMessage rec body)

def record_results (M : Machine W U) (chosen_tier : Tier) (views : List CallView) :
    List ToolExecutionRecord → TurnContext → Messages → RunM W U E (TurnContext × Messages)
  | [], turn_ctx, messages => pure (turn_ctx, messages)
  | rec :: records, turn_ctx, messages => do
    let (fact_id, message) ← record_result M chosen_tier views rec
    record_results M chosen_tier views records
      { turn_ctx with recent_tool_results := turn_ctx.recent_tool_results ++ [fact_id] }
      (messages ++ [message])

def feed_working_set (self : Orchestrator W U E) (messages : Messages) (turn_ctx : TurnContext) :
    Messages :=
  let render := (self.context.render_working_set turn_ctx).render
  if render.isEmpty then messages else messages ++ [{ role := "system", content := render }]

/-- The changed files are reported and invalidated as dependencies `file:<path>`. -/
def apply_side_effects (M : Machine W U) : RunM W U E Unit := do
  let changed ← Prog.of fun s =>
    let self := s.self
    (if self.options.side_effect_root.isEmpty then pure []
      else self.side_effects.diff M.platform s.world self.options.side_effect_root, s)
  if changed.isEmpty then pure ()
  else do
    record .WorkingSetRendered [("side_effects", .array (changed.map .string))]
    modifySelf fun self =>
      { self with
        cache := changed.foldl (fun cache p => cache.invalidate_dependency ("file:" ++ p))
          self.cache }

/-- The calls of a turn: looked up, executed, recorded and fed back. -/
def tool_phase (M : Machine W U) (task : Str) (chosen_tier : Tier) (calls : List ToolCall)
    (messages : Messages) : RunM W U E Messages := do
  let turn_ctx : TurnContext := { goal := task }
  let working ← Prog.step fun s => (s.self.context.render_working_set turn_ctx, s)
  record .WorkingSetRendered [("tokens", .number_unsigned working.token_count)]
  let views ← Prog.step fun s => (build_call_views s.self.registry calls, s)
  let records ← run_calls M calls views
  let (turn_ctx, messages) ← record_results M chosen_tier views records turn_ctx messages
  let messages ← Prog.step fun s => (feed_working_set s.self messages turn_ctx, s)
  apply_side_effects M
  pure messages

/-! ## The run -/

/-- How a turn ends: `run` goes on with the next, returns, or leaves the loop. -/
inductive TurnEnd
  | next (result : RunResult) (messages : Messages)
  | returned (r : Result RunResult)
  | broken (result : RunResult)

def turn (M : Machine W U) (task : Str) (budget : Budget) (turn : UInt32) (result : RunResult)
    (messages : Messages) : RunM W U E TurnEnd := do
  let result := { result with turns := turn + 1 }
  record .ModelRequested [("turn", .number_unsigned turn.toNat)]
  let (chosen_tier, response) ← complete_and_observe .Chore messages
  match response with
  | .error err => do
    record .Degraded [("error", .string err.message)]
    pure (.returned (.error err))
  | .ok resp => do
    record .ModelResponded [("plan", .string (trim_for_log resp.outcome.plan))]
    let turn_cost ← account resp.raw
    let result := { result with cost := result.cost + turn_cost }
    match budget_exhausted budget result.cost with
    | some reason => do
      record .BudgetHit [("reason", .string reason), ("cost", .number_float result.cost)]
      pure (.broken { result with bounded := true, bounded_reason := reason })
    | none =>
      if !resp.outcome.has_tool_use then do
        record .TaskEnded [("turn", .number_unsigned turn.toNat)]
        pure (.returned (.ok { result with completed := true, final_output := resp.outcome.plan }))
      else do
        let calls ← Prog.ofExcept (extract_tool_calls M.text resp.raw)
        record .ToolCalled [("count", .number_unsigned calls.length)]
        let review ← decision_review turn messages resp.outcome.plan calls
        match review with
        | .ended final_output =>
          pure (.returned (.ok { result with completed := true, final_output := final_output }))
        | .run calls => do
          let messages ← tool_phase M task chosen_tier calls messages
          pure (.next result messages)

/-- After the loop. -/
def finish (result : RunResult) : RunM W U E (Result RunResult) :=
  if result.bounded then pure (.ok result)
  else do
    record .BudgetHit [("turns", .number_unsigned result.turns.toNat)]
    pure (.ok { result with bounded := true, bounded_reason := "max_turns" })

/-- The loop of `run` with so many turns to go. -/
def turns (M : Machine W U) (task : Str) (budget : Budget) :
    ℕ → UInt32 → RunResult → Messages → RunM W U E (Result RunResult)
  | 0, _, result, _ => finish result
  | remaining + 1, i, result, messages => do
    let ended ← turn M task budget i result messages
    match ended with
    | .next result messages => turns M task budget remaining (i + 1) result messages
    | .returned r => pure r
    | .broken result => finish result

def take_snapshot (M : Machine W U) : RunM W U E Unit :=
  .of fun s =>
    let self := s.self
    if self.options.side_effect_root.isEmpty then (.ok (), s)
    else
      match SideEffectObserver.snapshot M.platform s.world self.options.side_effect_root with
      | .error e => (.error e, s)
      | .ok side_effects => (.ok (), { s with self := { self with side_effects := side_effects } })

def max_turns (budget : Budget) : UInt32 := if budget.active then budget.max_turns else 64

def run (M : Machine W U) (task : Str) (budget : Budget) : RunM W U E (Result RunResult) := do
  record .TurnStarted [("task", .string task)]
  take_snapshot M
  turns M task budget (max_turns budget).toNat 0 {} [{ role := "user", content := task }]

end Orchestrator

end Praxis
