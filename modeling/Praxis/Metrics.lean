import Praxis.Replay

/-!
# The telemetry report

The counters of `Telemetry` with the rest of the object: the timings of modules and of the whole,
in milliseconds.
-/

namespace Praxis

structure ModuleMetrics where
  name : Str
  invocations : UInt64 := 0
  total_ms : ℚ := 0
  last_ms : ℚ := 0
  deriving DecidableEq

/-- A `Telemetry` as a whole. -/
structure Metrics where
  counters : Telemetry := {}
  modules : List ModuleMetrics := []
  baseline_ms : ℚ := 0
  wall_ms : ℚ := 0
  deriving DecidableEq

namespace Metrics

/-- Adds to the first entry of that name, or appends one. -/
def record_module.entry (name : Str) (ms : ℚ) : List ModuleMetrics → List ModuleMetrics
  | [] => [{ name := name, invocations := 1, total_ms := ms, last_ms := ms }]
  | m :: modules =>
    if m.name = name then
      { m with invocations := m.invocations + 1, total_ms := m.total_ms + ms, last_ms := ms }
        :: modules
    else m :: record_module.entry name ms modules

def record_module (t : Metrics) (name : Str) (ms : ℚ) : Metrics :=
  { t with modules := record_module.entry name ms t.modules }

def set_baseline_ms (t : Metrics) (ms : ℚ) : Metrics := { t with baseline_ms := ms }

def set_wall_clock_ms (t : Metrics) (ms : ℚ) : Metrics := { t with wall_ms := ms }

/-- The counters are those of `Telemetry`. -/
def record_token (t : Metrics) (prompt completion : UInt32) : Metrics :=
  { t with counters := t.counters.record_token prompt completion }

def record_cache_hit (t : Metrics) (hit : Bool) : Metrics :=
  { t with counters := t.counters.record_cache_hit hit }

def record_tool_call (t : Metrics) (success : Bool) : Metrics :=
  { t with counters := t.counters.record_tool_call success }

def speedup_x (t : Metrics) : ℚ := if t.wall_ms ≤ 0 then 1 else t.baseline_ms / t.wall_ms

def total_module_ms (t : Metrics) : ℚ := t.modules.foldl (fun total m => total + m.total_ms) 0

def moduleJson (m : ModuleMetrics) : Json :=
  .ofFields
    [("name", .string m.name), ("invocations", .number_unsigned m.invocations.toNat),
      ("total_ms", .number_float m.total_ms), ("last_ms", .number_float m.last_ms)]

def report (t : Metrics) : Json :=
  .ofFields
    [("prompt_tokens", .number_unsigned t.counters.prompt_tokens.toNat),
      ("completion_tokens", .number_unsigned t.counters.completion_tokens.toNat),
      ("cache_hits", .number_unsigned t.counters.cache_hits.toNat),
      ("cache_misses", .number_unsigned t.counters.cache_misses.toNat),
      ("tool_success", .number_unsigned t.counters.tool_success.toNat),
      ("tool_failures", .number_unsigned t.counters.tool_failures.toNat),
      ("baseline_ms", .number_float t.baseline_ms), ("wall_clock_ms", .number_float t.wall_ms),
      ("speedup_x", .number_float t.speedup_x), ("modules", .array (t.modules.map moduleJson))]

/-- The calls that change the object. -/
inductive Op
  | record_module (name : Str) (ms : ℚ)
  | record_token (prompt completion : UInt32)
  | record_cache_hit (hit : Bool)
  | record_tool_call (success : Bool)
  | set_baseline_ms (ms : ℚ)
  | set_wall_clock_ms (ms : ℚ)
  deriving DecidableEq

def step (t : Metrics) : Op → Metrics
  | .record_module name ms => t.record_module name ms
  | .record_token prompt completion => t.record_token prompt completion
  | .record_cache_hit hit => t.record_cache_hit hit
  | .record_tool_call success => t.record_tool_call success
  | .set_baseline_ms ms => t.set_baseline_ms ms
  | .set_wall_clock_ms ms => t.set_wall_clock_ms ms

end Metrics

end Praxis
