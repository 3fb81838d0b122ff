import Praxis.Orchestrator

/-!
# Turns while others invalidate

Calls are under way, each looked up, executed if the cache does not answer it and stored at the end,
while other clients invalidate dependencies. A step is one operation on the cache or one execution,
in any order that the calls allow. Beside the orchestrator, the state counts the invalidations of
every dependency and notes the counts at which the result under a key was computed and put.
-/

namespace Praxis

open Orchestrator

variable {W U E : Type}

/-- How often each dependency has been invalidated. -/
abbrev Counts := Str → ℕ

/-- How far a call has come. -/
inductive Progress
  | idle
  | missed (call : ToolCall)
  /-- There is a record to store, of a result that was computed at the counts. -/
  | held (rec : ToolExecutionRecord) (seen : Counts)

structure Race (W U E : Type) where
  self : Orchestrator W U E
  calls : ℕ → Progress := fun _ => .idle
  invalidations : Counts := fun _ => 0
  computed : Str → Counts := fun _ _ => 0
  stored : Str → Counts := fun _ _ => 0

inductive RaceStep
  | lookup (i : ℕ) (call : ToolCall)
  /-- The tool of the call reads what it depends on and ends. -/
  | execute (i : ℕ) (result : ToolResult)
  /-- The record of the call is gone over, with the views of its batch. -/
  | store (i : ℕ) (batch : List ToolCall)
  | invalidate_cache_dependency (dep : Str)
  deriving DecidableEq

/-- The view under which a record is put into the cache, if it is. -/
def storedView (self : Orchestrator W U E) (views : List CallView) (rec : ToolExecutionRecord) :
    Option CallView :=
  if rec.result.ok && self.options.cache_tools then
    views.find? fun v => v.name == rec.tool_name && v.args == rec.arguments
  else none

namespace Race

/-- A call that the cache answers holds a record of the result that was computed earlier. -/
def lookup (r : Race W U E) (i : ℕ) (call : ToolCall) : Race W U E :=
  let self := r.self
  let view := callView self.registry call
  let got := self.cache.get (cache_key view) view.dependencies
  let cached := if self.options.cache_tools then got.1 else none
  { r with
    self := { self with cache := got.2 }
    calls := Function.update r.calls i <| match cached with
      | some output => .held (hitRecord call output) (r.computed (cache_key view))
      | none => .missed call }

def execute (r : Race W U E) (i : ℕ) (result : ToolResult) : Race W U E :=
  match r.calls i with
  | .missed call =>
    { r with calls := Function.update r.calls i (.held (call.toRecord result) r.invalidations) }
  | _ => r

def store (r : Race W U E) (i : ℕ) (batch : List ToolCall) : Race W U E :=
  match r.calls i with
  | .held rec seen =>
    let views := build_call_views r.self.registry batch
    let r' : Race W U E :=
      { r with
        self := cache_result views rec r.self
        calls := Function.update r.calls i .idle }
    match storedView r.self views rec with
    | some view =>
      { r' with
        computed := Function.update r.computed (cache_key view) seen
        stored := Function.update r.stored (cache_key view) r.invalidations }
    | none => r'
  | _ => r

def invalidate (r : Race W U E) (dep : Str) : Race W U E :=
  { r with
    self := r.self.invalidate_cache_dependency dep
    invalidations := Function.update r.invalidations dep (r.invalidations dep + 1) }

def step (r : Race W U E) : RaceStep → Race W U E
  | .lookup i call => r.lookup i call
  | .execute i result => r.execute i result
  | .store i batch => r.store i batch
  | .invalidate_cache_dependency dep => r.invalidate dep

def run (r : Race W U E) (steps : List RaceStep) : Race W U E := steps.foldl step r

/-- What the put of a step depends on and has been invalidated since the result was computed. -/
def overtaken (r : Race W U E) : RaceStep → List Str
  | .store i batch =>
    match r.calls i with
    | .held rec seen =>
      match storedView r.self (build_call_views r.self.registry batch) rec with
      | some view => view.dependencies.filter fun d => seen d != r.invalidations d
      | none => []
    | _ => []
  | _ => []

end Race

end Praxis
