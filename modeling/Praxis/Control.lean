import Praxis.Orchestrator
import Praxis.Lib.Blocks

/-!
# The run as a machine

`run` is cut where it asks a provider, where it looks calls up and executes them, where it goes
over the records and where it looks for side effects, so that what it has in hand there can be
spoken of. `exec_run` says that the machine does what `run` does.
-/

namespace Praxis

namespace Orchestrator

open Effect (Prog Blocks Yields)

variable {W U E : Type}

/-- The variables of the loop, with the number of turns that may still begin. -/
structure Loop where
  remaining : ℕ
  i : UInt32
  result : RunResult
  messages : Messages

/-- Where a run may be, with its variables there. -/
inductive Point
  /-- At the beginning. -/
  | start
  /-- At the head of the loop. -/
  | head (l : Loop)
  /-- About to ask for a chore completion. -/
  | asking (l : Loop)
  | answered (l : Loop) (chosen_tier : Tier) (response : Result ModelResponse)
  /-- About to ask for a decision on the calls of a plan. -/
  | reviewing (l : Loop) (chosen_tier : Tier) (plan : Str) (calls : List ToolCall)
  | reviewed (l : Loop) (chosen_tier : Tier) (calls : List ToolCall) (decision_tier : Tier)
    (response : Result ModelResponse)
  /-- About to look the calls up and to execute those that the cache does not have. -/
  | calling (l : Loop) (chosen_tier : Tier) (calls : List ToolCall)
  | called (l : Loop) (chosen_tier : Tier) (views : List CallView)
    (records : List ToolExecutionRecord)
  /-- About to look for side effects. -/
  | observing (l : Loop)
  /-- After the loop. -/
  | leaving (result : RunResult)
  | ended (r : Result RunResult)

namespace Point

def final : Point → Bool
  | ended _ => true
  | _ => false

/-- From here to the next point. -/
def block (M : Machine W U) (task : Str) (budget : Budget) : Point → RunM W U E Point
  | start => do
    record .TurnStarted [("task", .string task)]
    take_snapshot M
    pure (head
      { remaining := (max_turns budget).toNat
        i := 0
        result := {}
        messages := [{ role := "user", content := task }] })
  | head l =>
    match l.remaining with
    | 0 => pure (leaving l.result)
    | remaining + 1 => do
      record .ModelRequested [("turn", .number_unsigned l.i.toNat)]
      pure (asking { l with remaining := remaining, result := { l.result with turns := l.i + 1 } })
  | asking l => do
    let (chosen_tier, response) ← complete_and_observe .Chore l.messages
    pure (answered l chosen_tier response)
  | answered _ _ (.error err) => do
    record .Degraded [("error", .string err.message)]
    pure (ended (.error err))
  | answered l chosen_tier (.ok resp) => do
    record .ModelResponded [("plan", .string (trim_for_log resp.outcome.plan))]
    let turn_cost ← account resp.raw
    let result := { l.result with cost := l.result.cost + turn_cost }
    match budget_exhausted budget result.cost with
    | some reason => do
      record .BudgetHit [("reason", .string reason), ("cost", .number_float result.cost)]
      pure (leaving { result with bounded := true, bounded_reason := reason })
    | none =>
      if !resp.outcome.has_tool_use then do
        record .TaskEnded [("turn", .number_unsigned l.i.toNat)]
        pure (ended (.ok { result with completed := true, final_output := resp.outcome.plan }))
      else do
        let calls ← Prog.ofExcept (extract_tool_calls M.text resp.raw)
        record .ToolCalled [("count", .number_unsigned calls.length)]
        pure (reviewing { l with result := result } chosen_tier resp.outcome.plan calls)
  | reviewing l chosen_tier plan calls => do
    let (decision_tier, response) ←
      complete_and_observe .Decision (l.messages ++ [reviewMessage plan calls.length])
    pure (reviewed l chosen_tier calls decision_tier response)
  | reviewed l chosen_tier calls decision_tier (.error _) => do
    modifySelf (record_failure decision_tier)
    pure (calling l chosen_tier calls)
  | reviewed l chosen_tier calls decision_tier (.ok resp) =>
    match overridePlan resp.outcome.plan with
    | none => pure (calling l chosen_tier calls)
    | some override_plan => do
      record .Degraded [("decision_override", .string override_plan)]
      modifySelf fun self =>
        { self with cascade := self.cascade.record_outcome decision_tier true }
      if calls.isEmpty then do
        record .TaskEnded [("turn", .number_unsigned l.i.toNat)]
        pure (ended (.ok { l.result with completed := true, final_output := override_plan }))
      else pure (calling l chosen_tier [])
  | calling l chosen_tier calls => do
    let working ← Prog.step fun s => (s.self.context.render_working_set { goal := task }, s)
    record .WorkingSetRendered [("tokens", .number_unsigned working.token_count)]
    let views ← Prog.step fun s => (build_call_views s.self.registry calls, s)
    let records ← run_calls M calls views
    pure (called l chosen_tier views records)
  | called l chosen_tier views records => do
    let (turn_ctx, messages) ←
      record_results M chosen_tier views records { goal := task } l.messages
    let messages ← Prog.step fun s => (feed_working_set s.self messages turn_ctx, s)
    pure (observing { l with messages := messages })
  | observing l => do
    apply_side_effects M
    pure (head { l with i := l.i + 1 })
  | leaving result => do
    let r ← finish result
    pure (ended r)
  | ended r => pure (ended r)

/-- Which point can follow which. -/
inductive Next (M : Machine W U) (task : Str) (budget : Budget) : Point → Point → Prop
  | start : Next M task budget start
      (head
        { remaining := (max_turns budget).toNat
          i := 0
          result := {}
          messages := [{ role := "user", content := task }] })
  | timeOut {l : Loop} (h : l.remaining = 0) : Next M task budget (head l) (leaving l.result)
  | turn {l : Loop} {n : ℕ} (h : l.remaining = n + 1) : Next M task budget (head l)
      (asking { l with remaining := n, result := { l.result with turns := l.i + 1 } })
  | answer {l : Loop} (chosen_tier : Tier) (response : Result ModelResponse) :
      Next M task budget (asking l) (answered l chosen_tier response)
  | fail {l : Loop} {chosen_tier : Tier} {err : Error} :
      Next M task budget (answered l chosen_tier (.error err)) (ended (.error err))
  | bound {l : Loop} {chosen_tier : Tier} {resp : ModelResponse} (turn_cost : ℚ) {reason : Str}
      (h : budget_exhausted budget (l.result.cost + turn_cost) = some reason) :
      Next M task budget (answered l chosen_tier (.ok resp))
        (leaving
          { l.result with
            cost := l.result.cost + turn_cost, bounded := true, bounded_reason := reason })
  | complete {l : Loop} {chosen_tier : Tier} {resp : ModelResponse} (turn_cost : ℚ)
      (h : budget_exhausted budget (l.result.cost + turn_cost) = none)
      (htool : resp.outcome.has_tool_use = false) :
      Next M task budget (answered l chosen_tier (.ok resp))
        (ended (.ok
          { l.result with
            cost := l.result.cost + turn_cost, completed := true
            final_output := resp.outcome.plan }))
  | propose {l : Loop} {chosen_tier : Tier} {resp : ModelResponse} (turn_cost : ℚ)
      (h : budget_exhausted budget (l.result.cost + turn_cost) = none)
      (htool : resp.outcome.has_tool_use = true) {calls : List ToolCall}
      (hcalls : extract_tool_calls M.text resp.raw = .ok calls) :
      Next M task budget (answered l chosen_tier (.ok resp))
        (reviewing { l with result := { l.result with cost := l.result.cost + turn_cost } }
          chosen_tier resp.outcome.plan calls)
  | review {l : Loop} {chosen_tier : Tier} {plan : Str} {calls : List ToolCall}
      (decision_tier : Tier) (response : Result ModelResponse) :
      Next M task budget (reviewing l chosen_tier plan calls)
        (reviewed l chosen_tier calls decision_tier response)
  | stand {l : Loop} {chosen_tier decision_tier : Tier} {calls : List ToolCall} {err : Error} :
      Next M task budget (reviewed l chosen_tier calls decision_tier (.error err))
        (calling l chosen_tier calls)
  | confirm {l : Loop} {chosen_tier decision_tier : Tier} {calls : List ToolCall}
      {resp : ModelResponse} (h : overridePlan resp.outcome.plan = none) :
      Next M task budget (reviewed l chosen_tier calls decision_tier (.ok resp))
        (calling l chosen_tier calls)
  | overrideEnd {l : Loop} {chosen_tier decision_tier : Tier} {resp : ModelResponse}
      {override_plan : Str} (h : overridePlan resp.outcome.plan = some override_plan) :
      Next M task budget (reviewed l chosen_tier [] decision_tier (.ok resp))
        (ended (.ok { l.result with completed := true, final_output := override_plan }))
  | override {l : Loop} {chosen_tier decision_tier : Tier} {calls : List ToolCall}
      {resp : ModelResponse} {override_plan : Str}
      (h : overridePlan resp.outcome.plan = some override_plan) (hcalls : calls ≠ []) :
      Next M task budget (reviewed l chosen_tier calls decision_tier (.ok resp))
        (calling l chosen_tier [])
  | call {l : Loop} {chosen_tier : Tier} {calls : List ToolCall} (views : List CallView)
      (records : List ToolExecutionRecord) :
      Next M task budget (calling l chosen_tier calls) (called l chosen_tier views records)
  | results {l : Loop} {chosen_tier : Tier} {views : List CallView}
      {records : List ToolExecutionRecord} (messages : Messages) :
      Next M task budget (called l chosen_tier views records)
        (observing { l with messages := messages })
  | round {l : Loop} : Next M task budget (observing l) (head { l with i := l.i + 1 })
  | finish {result result' : RunResult} (h : result'.cost = result.cost) :
      Next M task budget (leaving result) (ended (.ok result'))

theorem yields_finish (result : RunResult) :
    Yields (finish result : RunM W U E _) fun r =>
      ∃ result', r = .ok result' ∧ result'.cost = result.cost := by
  unfold finish
  split_ifs
  · exact .pure ⟨_, rfl, rfl⟩
  · exact .bind fun _ => .pure ⟨_, rfl, rfl⟩

theorem next_block {M : Machine W U} {task : Str} {budget : Budget} (p : Point)
    (hp : p.final = false) :
    Yields (block M task budget p : RunM W U E Point) (Next M task budget p) := by
  cases p with
  | start => exact .bind fun _ => .bind fun _ => .pure .start
  | head l =>
    unfold block
    dsimp only
    split
    · next h => exact .pure (.timeOut h)
    · next remaining h => exact .bind fun _ => .pure (.turn h)
  | asking l => exact .bind fun _ => .pure (.answer _ _)
  | answered l chosen_tier response =>
    cases response with
    | error err => exact .bind fun _ => .pure .fail
    | ok resp =>
      refine .bind fun _ => .bind fun turn_cost => ?_
      dsimp only
      split
      · next reason h => exact .bind fun _ => .pure (.bound turn_cost h)
      · next h =>
        split_ifs with htool
        · exact .bind fun _ => .pure (.complete turn_cost h (by simpa using htool))
        · refine .bindOf (R := fun calls => extract_tool_calls M.text resp.raw = .ok calls) ?_
            fun calls hcalls => .bind fun _ => .pure
              (.propose turn_cost h (by simpa using htool) hcalls)
          exact fun s calls s' hx => congrArg Prod.fst hx
  | reviewing l chosen_tier plan calls => exact .bind fun _ => .pure (.review _ _)
  | reviewed l chosen_tier calls decision_tier response =>
    cases response with
    | error err => exact .bind fun _ => .pure .stand
    | ok resp =>
      unfold block
      dsimp only
      split
      · next h => exact .pure (.confirm h)
      · next override_plan h =>
        refine .bind fun _ => .bind fun _ => ?_
        split_ifs with hcalls
        · obtain rfl := List.isEmpty_iff.1 hcalls
          exact .bind fun _ => .pure (.overrideEnd h)
        · exact .pure (.override h (by simpa using hcalls))
  | calling l chosen_tier calls =>
    exact .bind fun _ => .bind fun _ => .bind fun _ => .bind fun _ => .pure (.call _ _)
  | called l chosen_tier views records => exact .bind fun _ => .bind fun _ => .pure (.results _)
  | observing l => exact .bind fun _ => .pure .round
  | leaving result =>
    refine .bindOf (yields_finish result) fun r hr => ?_
    obtain ⟨result', rfl, hcost⟩ := hr
    exact .pure (.finish hcost)
  | ended r => cases hp

/-- A bound on the number of points to come. -/
def rank (budget : Budget) : Point → ℕ
  | start => 10 * (max_turns budget).toNat + 3
  | head l => 10 * l.remaining + 2
  | asking l => 10 * l.remaining + 9
  | answered l _ _ => 10 * l.remaining + 8
  | reviewing l _ _ _ => 10 * l.remaining + 7
  | reviewed l _ _ _ _ => 10 * l.remaining + 6
  | calling l _ _ => 10 * l.remaining + 5
  | called l _ _ _ => 10 * l.remaining + 4
  | observing l => 10 * l.remaining + 3
  | leaving _ => 1
  | ended _ => 0

theorem Next.rank_lt {M : Machine W U} {task : Str} {budget : Budget} {p q : Point}
    (h : Next M task budget p q) : rank budget q < rank budget p := by
  cases h with
  | turn h =>
    simp only [rank, h]
    omega
  | _ => simp [rank]

end Point

/-- `run`, cut at the points. -/
def control (M : Machine W U) (task : Str) (budget : Budget) :
    Blocks Exn (Sys W U E) Point where
  final := Point.final
  block := Point.block M task budget
  rank := Point.rank budget
  rank_lt p s q s' hp h := (Point.next_block p hp s q s' h).rank_lt

/-- A configuration of a run: a point, or the exception that has escaped, and the state. -/
abbrev Config (W U E : Type) := Except Exn Point × Sys W U E

/-- The moves of a run from the state `s`. -/
def moves (M : Machine W U) (task : Str) (budget : Budget) (s : Sys W U E) :
    List (Config W U E × Config W U E) := (control M task budget).moves (.ok .start, s)

/-- The moves of runs one after the other, each from the state that the one before has left. -/
def sessionMoves (M : Machine W U) :
    List (Str × Budget) → Sys W U E → List (Config W U E × Config W U E)
  | [], _ => []
  | (task, budget) :: runs, s =>
    moves M task budget s ++ sessionMoves M runs ((run M task budget).exec s).2

/-- What a client may ask of an orchestrator: a run, or one of the calls between the runs. -/
inductive ClientCall (W U E : Type)
  | run (task : Str) (budget : Budget)
  | register_builtin (ctx : Option (Ctx U))
  | register_tool (tool : Option (Tool W U))
  | set_provider (tier : Tier) (provider : Option (Provider E))
  | attach_observer (sink : EventSink E)
  | set_executor_parallel (parallel : Bool)
  | invalidate_cache_dependency (dep : Str)

/-- The system that a call leaves, also by an exception. -/
def ClientCall.exec (M : Machine W U) (s : Sys W U E) : ClientCall W U E → Sys W U E
  | run task budget => ((Orchestrator.run M task budget).exec s).2
  | register_builtin ctx => { s with self := s.self.register_builtin M.text M.platform ctx }
  | register_tool tool => { s with self := s.self.register_tool tool }
  | set_provider tier provider => { s with self := s.self.set_provider tier provider }
  | attach_observer sink => { s with self := s.self.attach_observer sink }
  | set_executor_parallel parallel => { s with self := s.self.set_executor_parallel parallel }
  | invalidate_cache_dependency dep =>
    { s with self := s.self.invalidate_cache_dependency dep }

/-- What a provider has answered to a request for a completion. -/
structure Completion where
  role : Role
  tier : Tier
  response : Result ModelResponse

/-- The completion that has just come in. -/
def Point.obtained : Point → Option Completion
  | .answered _ tier response => some { role := .Chore, tier := tier, response := response }
  | .reviewed _ _ _ tier response =>
    some { role := .Decision, tier := tier, response := response }
  | _ => none

/-- The completion that a move obtains. -/
def completionOf (m : Config W U E × Config W U E) : Option Completion :=
  match m.2.1 with
  | .ok p => p.obtained
  | .error _ => none

def completions (ms : List (Config W U E × Config W U E)) : List Completion :=
  ms.filterMap completionOf

end Orchestrator

end Praxis
