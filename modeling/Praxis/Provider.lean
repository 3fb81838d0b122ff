import Praxis.Types
import Praxis.ModelCascade

/-!
# Providers

A provider answers a message list, and whatever that changes outside the engine is a change of the
environment `E`.
-/

namespace Praxis

variable {E : Type}

structure Provider (E : Type) where
  complete : Messages → E → Except Exn (Result ModelResponse) × E

/-- Durations are in milliseconds. -/
structure RetryPolicy where
  max_attempts : UInt32 := 3
  initial_backoff : ℤ := 200
  backoff_multiplier : ℚ := 2
  max_backoff : ℤ := 5000
  deriving DecidableEq

/-- A `RetryingProvider` with the durations it has slept. -/
structure RetryingProvider (E : Type) where
  inner : Option (Provider E)
  policy : RetryPolicy := {}
  attempts : UInt32 := 0
  retries : UInt32 := 0
  slept : List ℤ := []

namespace RetryingProvider

/-- The backoff after a sleep of `backoff`. The multiplier and the product are doubles in the source
and exact rationals here: 5 ms times the double 1.4 is 7 ms there, while that double, a little below
1.4, makes it 6 ms here. -/
def nextBackoff (policy : RetryPolicy) (backoff : ℤ) : ℤ :=
  let next := (backoff : ℚ) * policy.backoff_multiplier
  min (if 0 ≤ next then next.floor else next.ceil) policy.max_backoff

def countAttempt (self : RetryingProvider E) : RetryingProvider E :=
  { self with attempts := self.attempts + 1 }

/-- `++retries_` and the sleep. -/
def backOff (self : RetryingProvider E) (backoff : ℤ) : RetryingProvider E :=
  { self with retries := self.retries + 1, slept := self.slept ++ [backoff] }

/-- The loop of `complete` with `attempts` attempts to go. -/
def completeLoop (inner : Provider E) (context : Messages) :
    ℕ → ℤ → Result ModelResponse → RetryingProvider E → E →
      Except Exn (Result ModelResponse) × RetryingProvider E × E
  | 0, _, last, self, env => (.ok last, self, env)
  | attempts + 1, backoff, _, self, env =>
    match inner.complete context env with
    | (.error e, env') => (.error e, self.countAttempt, env')
    | (.ok (.ok response), env') => (.ok (.ok response), self.countAttempt, env')
    | (.ok (.error err), env') =>
      if err.kind = .Validation ∨ err.kind = .Cancelled ∨ attempts = 0 then
        (.ok (.error err), self.countAttempt, env')
      else
        completeLoop inner context attempts (nextBackoff self.policy backoff) (.error err)
          (self.countAttempt.backOff backoff) env'

def complete (self : RetryingProvider E) (context : Messages) (env : E) :
    Except Exn (Result ModelResponse) × RetryingProvider E × E :=
  match self.inner with
  | none =>
    (.ok (.error { kind := .Internal, message := "retrying provider has no inner" }), self, env)
  | some inner =>
    completeLoop inner context self.policy.max_attempts.toNat self.policy.initial_backoff
      (.error { kind := .Internal, message := "default-constructed Result" }) self env

end RetryingProvider

/-! ## The OpenAI provider -/

structure OpenAIProvider where
  model : Str
  path : Str
  deriving DecidableEq

namespace OpenAIProvider

/-- One message of the request. -/
def requestMessage (msg : Message) : Json :=
  match msg.tool_calls with
  | none => .ofFields [("role", .string msg.role), ("content", .string msg.content)]
  | some calls =>
    .ofFields [("role", .string msg.role), ("content", .string msg.content), ("tool_calls", calls)]

def requestBody (self : OpenAIProvider) (context : Messages) : Json :=
  .ofFields [("model", .string self.model), ("messages", .array (context.map requestMessage))]

def failure (message : Str) : Result ModelResponse :=
  .error { kind := .ProviderFailure, message := message }

/-- `parsed["choices"][0]`, if there are choices. -/
def firstChoice (parsed : Json) : Option Json :=
  match parsed.field? "choices" with
  | some (.array (choice :: _)) => some choice
  | _ => none

/-- What `complete` makes of the JSON of a reply. -/
def readReply (parsed : Json) : Except Exn (Result ModelResponse) :=
  match firstChoice parsed with
  | none => pure (failure "response missing choices")
  | some choice => do
    let message ← choice.index "message"
    let plan ← message.value Json.getString "content" []
    let tool_calls ← message.value .ok "tool_calls" (.array [])
    let entries := match tool_calls with
      | .array entries => entries
      | _ => []
    pure (.ok
      { outcome :=
          { plan := plan
            has_tool_use := !entries.isEmpty
            tool_count := UInt32.ofNat entries.length }
        raw := parsed })

/-- `post` is the HTTP client: the status and the body of a reply, if one comes. -/
def complete (T : JsonText) (post : Str → Str → E → Option (ℕ × Str) × E) (self : OpenAIProvider)
    (context : Messages) (env : E) : Except Exn (Result ModelResponse) × E :=
  match T.dump (self.requestBody context) with
  | .error e => (.error e, env)
  | .ok body =>
    match post self.path body env with
    | (none, env') => (.ok (failure "http request failed"), env')
    | (some (status, reply), env') =>
      if status ≠ 200 then (.ok (failure ("http status " ++ decimal status)), env')
      else
        match T.parse reply with
        | none => (.ok (failure "invalid json response"), env')
        | some parsed => (readReply parsed, env')

end OpenAIProvider

/-! ## The fake provider -/

structure FakeProvider where
  steps : List Json := []
  call_count : UInt64 := 0
  context_sizes : List ℕ := []
  deriving DecidableEq

namespace FakeProvider

def is_decision_review (context : Messages) : Bool :=
  match context.getLast? with
  | none => false
  | some last => last.role == "user" && starts_with "Decision review:" last.content

def size : Json → ℕ
  | .null => 0
  | .array elems => elems.length
  | .object fields => fields.length
  | _ => 1

/-- What `complete` makes of a scripted step. -/
def readStep (step : Json) : Except Exn (Result ModelResponse) := do
  let plan ← step.value Json.getString "plan" "no plan stated"
  let has_tool_use := match step.field? "tool_calls" with
    | some (.array (_ :: _)) => true
    | _ => false
  let tool_calls ← step.value .ok "tool_calls" (.array [])
  pure (.ok
    { outcome :=
        { plan := plan, has_tool_use := has_tool_use, tool_count := UInt32.ofNat (size tool_calls) }
      raw := step })

def confirm : ModelResponse where
  outcome := { plan := "CONFIRM" }
  raw := .ofFields [("plan", .string "CONFIRM"), ("tool_calls", .array [])]

/-- The provider's object is the environment. -/
def complete (context : Messages) (self : FakeProvider) :
    Except Exn (Result ModelResponse) × FakeProvider :=
  let counted : FakeProvider :=
    { self with
      call_count := self.call_count + 1
      context_sizes := self.context_sizes ++ [context.length] }
  if is_decision_review context then (.ok (.ok confirm), counted)
  else
    match counted.steps with
    | [] =>
      (.ok (.error { kind := .ProviderFailure, message := "fake provider script exhausted" }),
        counted)
    | step :: steps => (readStep step, { counted with steps := steps })

def provider : Provider FakeProvider := ⟨complete⟩

end FakeProvider

end Praxis
