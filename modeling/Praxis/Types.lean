import Praxis.Json

/-!
# The engine's data types
-/

namespace Praxis

structure ToolCall where
  name : Str := []
  arguments : Str := []
  ordinal : ℕ := 0
  deriving DecidableEq, Inhabited

structure TurnOutcome where
  plan : Str := []
  has_tool_use : Bool := false
  tool_count : UInt32 := 0
  completed : Bool := false
  deriving DecidableEq, Inhabited

structure Budget where
  max_turns : UInt32 := 64
  max_cost : ℚ := 0
  active : Bool := false
  deriving DecidableEq

/-- Prices per 1000 prompt tokens and per 1000 completion tokens. -/
structure PricingConfig where
  prompt_per_1k : ℚ := 0
  completion_per_1k : ℚ := 0
  deriving DecidableEq

inductive ErrorKind
  | None | ProviderFailure | ToolFailed | Timeout | Validation | BudgetExhausted | Cancelled
  | Internal
  deriving DecidableEq, Inhabited

structure Error where
  kind : ErrorKind := .None
  message : Str := []
  deriving DecidableEq, Inhabited

/-- `Result<T>`: an `Error` or a value. -/
abbrev Result (α : Type) := Except Error α

structure Message where
  role : Str
  content : Str
  tool_calls : Option Json := none
  deriving DecidableEq

abbrev Messages := List Message

structure ModelResponse where
  outcome : TurnOutcome := {}
  raw : Json := .null
  deriving DecidableEq, Inhabited

structure ToolResult where
  ok : Bool := true
  output : Json := .null
  error_message : Str := []
  observed_resources : List Str := []
  deriving DecidableEq, Inhabited

structure ToolExecutionRecord where
  ordinal : ℕ := 0
  tool_name : Str := []
  arguments : Str := []
  result : ToolResult := {}
  observed_resources : List Str := []
  from_cache : Bool := false
  deriving DecidableEq, Inhabited

end Praxis
