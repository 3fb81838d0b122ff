import Praxis.Tool
import Praxis.DependencyGraph

/-!
# The tool executor

A batch of calls runs group by group. The workers of a group are all launched before the first is
awaited, so they interleave as a `Scheduler` has it, and the records come out group by group. An
exception of a worker leaves `execute` from the `get` of its future. The source then destroys the
forked contexts before it waits for the other workers of the group, which may still be using them;
here these workers run to their ends on contexts that stay.
-/

namespace Praxis

open Interleave (Proc Scheduler)

variable {W U : Type}

/-- Which way `invoke_one` goes. -/
inductive InvokePath (W U : Type)
  | tool_not_found
  | no_context
  | invoke (tool : Tool W U) (ctx : Ctx U)

/-- The checks of `invoke_one`, in order. -/
def invokePath (registry : ToolRegistry W U) (call : ToolCall) (ctx : Option (Ctx U)) :
    InvokePath W U :=
  match registry.find call.name, ctx with
  | none, _ => .tool_not_found
  | some _, none => .no_context
  | some tool, some c => .invoke tool c

/-- The record of a call before it has a result. -/
def ToolCall.toRecord (call : ToolCall) (result : ToolResult) : ToolExecutionRecord where
  ordinal := call.ordinal
  tool_name := call.name
  arguments := call.arguments
  result := result

def invoke_one (registry : ToolRegistry W U) (call : ToolCall) (ctx : Option (Ctx U)) :
    ToolM W ToolExecutionRecord :=
  match invokePath registry call ctx with
  | .tool_not_found =>
    pure (call.toRecord { ok := false, error_message := "tool not found: " ++ call.name })
  | .no_context =>
    pure (call.toRecord
      { ok := false, error_message := "no tool context available for: " ++ call.name })
  | .invoke tool c => do
    let result ← tool.invoke call c
    pure { call.toRecord result with observed_resources := result.observed_resources }

/-- The resources that the tool of a call claims for it. -/
def resourcesOf (registry : ToolRegistry W U) (call : ToolCall) : List Str :=
  match registry.find call.name with
  | some tool => tool.resources_for call
  | none => []

/-- The graph `execute` builds. -/
def callGraph (registry : ToolRegistry W U) (calls : List ToolCall) : DependencyGraph :=
  DependencyGraph.ofCalls (calls.map fun c => (c, resourcesOf registry c))

/-- The groups `execute` runs, each a list of indices into the batch. -/
def executionGroups (parallel_safe : Bool) (graph : DependencyGraph) (n : ℕ) : List (List ℕ) :=
  let groups := if parallel_safe then graph.schedule else [List.range n]
  if groups.isEmpty then [List.range n] else groups

/-- The context a worker gets: a fork of the batch's, if there is one. -/
def forkContext (P : Platform W U) (ctx : Option (Ctx U)) (w : W) : Option (Ctx U) × W :=
  match ctx with
  | some c =>
    let forked := c.fork P w
    (some forked.1, forked.2)
  | none => (none, w)

/-- One worker: the context is forked, then the call is invoked on the fork. -/
def launch (P : Platform W U) (registry : ToolRegistry W U) (calls : List ToolCall)
    (ctx : Option (Ctx U)) (idx : ℕ) (w : W) :
    Proc W (Except Exn ToolExecutionRecord) × W :=
  let forked := forkContext P ctx w
  (invoke_one registry (calls.getD idx {}) forked.1, forked.2)

structure ToolExecutor where
  parallel_safe : Bool := true
  invocations : UInt64 := 0
  failures : UInt64 := 0
  deriving DecidableEq

namespace ToolExecutor

def count (ex : ToolExecutor) (r : ToolExecutionRecord) : ToolExecutor :=
  { ex with
    invocations := ex.invocations + 1
    failures := if r.result.ok then ex.failures else ex.failures + 1 }

/-- Awaits the futures of a group in order. -/
def await : List (Except Exn ToolExecutionRecord) → ToolExecutor → List ToolExecutionRecord →
    Except Exn (List ToolExecutionRecord) × ToolExecutor
  | [], ex, out => (.ok out, ex)
  | .error e :: _, ex, _ => (.error e, ex)
  | .ok r :: futures, ex, out => await futures (ex.count r) (out ++ [r])

variable (sched : Scheduler ℕ W (Except Exn ToolExecutionRecord)) (P : Platform W U)
  (registry : ToolRegistry W U)

/-- The loop over the groups. -/
def executeGroups (calls : List ToolCall) (ctx : Option (Ctx U)) :
    List (List ℕ) → ToolExecutor → W → List ToolExecutionRecord →
      Except Exn (List ToolExecutionRecord) × ToolExecutor × W
  | [], ex, w, out => (.ok out, ex, w)
  | group :: groups, ex, w, out =>
    let run := sched.runGroup (launch P registry calls ctx) group w
    match await run.1 ex out with
    | (.ok out', ex') => executeGroups calls ctx groups ex' run.2 out'
    | (.error e, ex') => (.error e, ex', run.2)

def execute (ex : ToolExecutor) (calls : List ToolCall) (ctx : Option (Ctx U)) (w : W) :
    Except Exn (List ToolExecutionRecord) × ToolExecutor × W :=
  if calls.isEmpty then (.ok [], ex, w)
  else
    let groups := executionGroups ex.parallel_safe (callGraph registry calls) calls.length
    executeGroups sched P registry calls ctx groups ex w []

end ToolExecutor

end Praxis
