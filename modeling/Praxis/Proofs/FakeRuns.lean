import Praxis.FrontEnd
import Praxis.Proofs.Control

/-!
# The fake provider

The front ends give the fake provider a script of one step. A task that it takes for a decision
review is confirmed without the script; of the others the first is done and the rest fail
(`fake_engine_runs`).
-/

namespace Praxis

namespace Orchestrator

open Effect (Prog)

variable {W U H : Type} {M : Machine W U}

/-- An orchestrator with nothing but the fake provider and so much of its script. -/
structure FakeReady (steps : List Json) (s : Sys W U (FakeProvider × H)) : Prop where
  sinks : s.self.replay.sinks = []
  retrying : ∃ rp : RetryingProvider (FakeProvider × H), s.self.retrying = [rp]
    ∧ rp.inner = some FakeProvider.provider.beside ∧ rp.policy = {}
  router : ∀ tier, s.self.router.lookup tier = some 0
  root : s.self.options.side_effect_root = []
  script : s.env.1.steps = steps

variable {steps : List Json} {s : Sys W U (FakeProvider × H)}

theorem FakeReady.record (h : FakeReady steps s) (kind : EventKind) (payload : List (Str × Json)) :
    ∃ s', (record kind payload).exec s = (.ok (), s') ∧ FakeReady steps s' := by
  let event : Event := { kind := kind, payload := .ofFields payload }
  have hnotify : Replay.notify (s.self.replay.numbered event) s.self.replay.sinks s.env
      = (.ok (), s.env) := by
    rw [h.sinks]
    rfl
  refine ⟨{ s with self := { s.self with replay := s.self.replay.push event } }, ?_,
    h.sinks, h.retrying, h.router, h.root, h.script⟩
  unfold Orchestrator.record
  rw [Prog.exec_of]
  unfold Replay.record
  dsimp only
  rw [hnotify]

theorem FakeReady.take_snapshot (h : FakeReady steps s) :
    (take_snapshot M).exec s = (.ok (), s) := by
  unfold Orchestrator.take_snapshot
  rw [Prog.exec_of]
  dsimp only
  rw [h.root]
  rfl

theorem FakeReady.for_tier (h : FakeReady steps s) (tier : Tier) :
    ∃ rp, s.self.for_tier tier = some (0, rp) ∧ s.self.retrying = [rp]
      ∧ rp.inner = some FakeProvider.provider.beside ∧ rp.policy = {} := by
  obtain ⟨rp, hretrying, hinner, hpolicy⟩ := h.retrying
  refine ⟨rp, ?_, hretrying, hinner, hpolicy⟩
  unfold Orchestrator.for_tier
  rw [h.router, hretrying]
  rfl

/-- A completion does what the retrying provider does, and leaves it as it found it but for its
counters. -/
theorem FakeReady.completed (h : FakeReady steps s) (role : Role) {messages : Messages}
    {response : Result ModelResponse} {steps' : List Json}
    (hcomplete : ∀ rp : RetryingProvider (FakeProvider × H),
      rp.inner = some FakeProvider.provider.beside → rp.policy = {} →
      ∃ rp' env', rp.complete messages s.env = (.ok response, rp', env')
        ∧ rp'.inner = rp.inner ∧ rp'.policy = rp.policy ∧ env'.1.steps = steps') :
    ∃ s', (complete_for role messages).exec s = (.ok response, s') ∧ FakeReady steps' s' := by
  obtain ⟨rp, htier, hretrying, hinner, hpolicy⟩ := h.for_tier (s.self.cascade.route_for role)
  obtain ⟨rp', env', hrun, hinner', hpolicy', hsteps⟩ := hcomplete rp hinner hpolicy
  refine ⟨{ s with self := { s.self with retrying := s.self.retrying.set 0 rp' }, env := env' },
    ?_, h.sinks, ⟨rp', ?_, hinner'.trans hinner, hpolicy'.trans hpolicy⟩, h.router, h.root, hsteps⟩
  · unfold complete_for
    rw [Prog.exec_of]
    dsimp only
    rw [htier]
    dsimp only
    rw [hrun]
  · rw [hretrying]
    rfl

/-- A provider that answers at once is asked once. -/
theorem FakeReady.answered (h : FakeReady steps s) {role : Role} {messages : Messages}
    {resp : ModelResponse} {steps' : List Json}
    (hanswer : (FakeProvider.complete messages s.env.1).1 = .ok (.ok resp))
    (hsteps : (FakeProvider.complete messages s.env.1).2.steps = steps') :
    ∃ s', (complete_for role messages).exec s = (.ok (.ok resp), s') ∧ FakeReady steps' s' := by
  refine h.completed role fun rp hinner hpolicy => ⟨rp.countAttempt,
    ((FakeProvider.complete messages s.env.1).2, s.env.2), ?_, rfl, rfl, hsteps⟩
  unfold RetryingProvider.complete
  rw [hinner, hpolicy]
  show RetryingProvider.completeLoop FakeProvider.provider.beside messages (2 + 1) _ _ rp s.env = _
  unfold RetryingProvider.completeLoop
  rw [show (FakeProvider.provider.beside : Provider (FakeProvider × H)).complete messages s.env
    = ((FakeProvider.complete messages s.env.1).1, (FakeProvider.complete messages s.env.1).2,
      s.env.2) from rfl, hanswer]

def exhausted : Error where
  kind := .ProviderFailure
  message := "fake provider script exhausted"

theorem completeLoop_exhausted {messages : Messages}
    (hreview : FakeProvider.is_decision_review messages = false) :
    ∀ (attempts : ℕ) (backoff : ℤ) (last : Result ModelResponse)
      (rp : RetryingProvider (FakeProvider × H)) (env : FakeProvider × H), env.1.steps = [] →
      ∃ rp' env', RetryingProvider.completeLoop FakeProvider.provider.beside messages (attempts + 1)
          backoff last rp env = (.ok (.error exhausted), rp', env')
        ∧ rp'.inner = rp.inner ∧ rp'.policy = rp.policy ∧ env'.1.steps = []
  | attempts, backoff, last, rp, env, hsteps => by
    let after : FakeProvider × H :=
      ({ env.1 with
        call_count := env.1.call_count + 1
        context_sizes := env.1.context_sizes ++ [messages.length] }, env.2)
    have hcomplete : (FakeProvider.provider.beside : Provider (FakeProvider × H)).complete messages
        env = (.ok (.error exhausted), after) := by
      show ((FakeProvider.complete messages env.1).1, (FakeProvider.complete messages env.1).2, _)
        = _
      unfold FakeProvider.complete
      simp only [hreview, hsteps, Bool.false_eq_true, if_false, after]
      rfl
    unfold RetryingProvider.completeLoop
    rw [hcomplete]
    dsimp only
    split_ifs with hlast
    · exact ⟨_, _, rfl, rfl, rfl, hsteps⟩
    · obtain ⟨attempts, rfl⟩ := Nat.exists_eq_succ_of_ne_zero fun h => hlast (.inr (.inr h))
      exact completeLoop_exhausted hreview attempts _ _ (rp.countAttempt.backOff backoff) after
        hsteps

theorem FakeReady.refused (h : FakeReady [] s) (role : Role) {messages : Messages}
    (hreview : FakeProvider.is_decision_review messages = false) :
    ∃ s', (complete_for role messages).exec s = (.ok (.error exhausted), s')
      ∧ FakeReady [] s' := by
  refine h.completed role fun rp hinner hpolicy => ?_
  obtain ⟨rp', env', hloop, hkept⟩ := completeLoop_exhausted hreview 2 200
    (.error { kind := .Internal, message := "default-constructed Result" }) rp s.env h.script
  refine ⟨rp', env', ?_, hkept⟩
  unfold RetryingProvider.complete
  rw [hinner, hpolicy]
  exact hloop

/-- Only the cascade is touched after a completion. -/
theorem FakeReady.observed {role : Role} {messages : Messages} {response : Result ModelResponse}
    {s' : Sys W U (FakeProvider × H)} (h : FakeReady steps s')
    (hexec : (complete_for role messages).exec s = (.ok response, s')) :
    ∃ tier s'', (complete_and_observe role messages).exec s = (.ok (tier, response), s'')
      ∧ FakeReady steps s'' := by
  let tier := s.self.cascade.route_for role
  refine ⟨tier, { s' with self := observe_outcome tier response s'.self }, ?_,
    h.sinks, h.retrying, h.router, h.root, h.script⟩
  unfold complete_and_observe
  rw [Prog.exec_bind, Prog.exec_step]
  dsimp only
  rw [Prog.exec_bind, hexec]
  rfl

/-- The messages of the first request. -/
def firstRequest (task : Str) : Messages := [{ role := "user", content := task }]

/-- A response that ends the run: it proposes no calls and reports no tokens. -/
structure Final (resp : ModelResponse) : Prop where
  has_tool_use : resp.outcome.has_tool_use = false
  usage : resp.raw.field? "usage" = none

/-- The result of a run that the first answer ends. -/
def doneResult (plan : Str) : RunResult where
  completed := true
  turns := 1
  final_output := plan

/-- The result of a run without turns. -/
def idleResult : RunResult where
  bounded := true
  bounded_reason := "max_turns"

def limited (limit : UInt32) : Budget where
  max_turns := limit
  active := true

variable {task : Str} {limit : UInt32} {steps' : List Json}

/-- How a run begins. -/
theorem FakeReady.start (h : FakeReady steps s) {r : Result RunResult}
    {P : Sys W U (FakeProvider × H) → Prop}
    (hturns : ∀ s', FakeReady steps s' → ∃ s'', (turns M task (limited limit) limit.toNat 0 {}
      (firstRequest task)).exec s' = (.ok r, s'') ∧ P s'') :
    ∃ s', (run M task (limited limit)).exec s = (.ok r, s') ∧ P s' := by
  obtain ⟨s₁, hrecord, h₁⟩ := h.record .TurnStarted [("task", .string task)]
  obtain ⟨s₂, hrun, h₂⟩ := hturns s₁ h₁
  refine ⟨s₂, ?_, h₂⟩
  unfold run
  rw [Prog.exec_bind, hrecord]
  dsimp only
  rw [Prog.exec_bind, h₁.take_snapshot]
  exact hrun

theorem FakeReady.run_idle (h : FakeReady steps s) (M : Machine W U) (task : Str) :
    ∃ s', (run M task (limited 0)).exec s = (.ok (.ok idleResult), s') ∧ FakeReady steps s' := by
  refine h.start fun s' h' => ?_
  obtain ⟨s'', hrecord, h''⟩ := h'.record .BudgetHit [("turns", .number_unsigned 0)]
  refine ⟨s'', ?_, h''⟩
  show (finish {} : RunM W U _ _).exec s' = _
  unfold finish
  rw [if_neg (by decide), Prog.exec_bind]
  rw [show (Orchestrator.record .BudgetHit
    [(lit "turns", .number_unsigned (RunResult.turns {}).toNat)]).exec s' = _ from hrecord]
  rfl

theorem budget_exhausted_limited (limit : UInt32) (cost : ℚ) :
    budget_exhausted (limited limit) cost = none := by
  unfold budget_exhausted limited
  simp

theorem FakeReady.run_answered (h : FakeReady steps s) (M : Machine W U) (task : Str)
    (hlimit : limit ≠ 0) {resp : ModelResponse} (hfinal : Final resp)
    (hanswer : ∀ s' : Sys W U (FakeProvider × H), FakeReady steps s' →
      ∃ s'', (complete_for .Chore (firstRequest task)).exec s' = (.ok (.ok resp), s'')
        ∧ FakeReady steps' s'') :
    ∃ s', (run M task (limited limit)).exec s = (.ok (.ok (doneResult resp.outcome.plan)), s')
      ∧ FakeReady steps' s' := by
  refine h.start fun s₀ h₀ => ?_
  obtain ⟨n, hn⟩ := Nat.exists_eq_succ_of_ne_zero (n := limit.toNat)
    fun hzero => hlimit (UInt32.toNat_inj.1 hzero)
  obtain ⟨s₁, hrequested, h₁⟩ := h₀.record .ModelRequested [("turn", .number_unsigned 0)]
  obtain ⟨s₂, hcomplete, h₂⟩ := hanswer s₁ h₁
  obtain ⟨tier, s₃, hobserved, h₃⟩ := h₂.observed hcomplete
  obtain ⟨s₄, hresponded, h₄⟩ := h₃.record .ModelResponded
    [("plan", .string (trim_for_log resp.outcome.plan))]
  obtain ⟨s₅, hended, h₅⟩ := h₄.record .TaskEnded [("turn", .number_unsigned 0)]
  have hturn : (turn M task (limited limit) 0 {} (firstRequest task)).exec s₀
      = (.ok (.returned (.ok (doneResult resp.outcome.plan))), s₅) := by
    unfold turn
    rw [Prog.exec_bind, show (Orchestrator.record .ModelRequested
      [(lit "turn", .number_unsigned (0 : UInt32).toNat)]).exec s₀ = _ from hrequested]
    dsimp only
    rw [Prog.exec_bind, hobserved]
    dsimp only
    rw [Prog.exec_bind, hresponded]
    dsimp only
    rw [Prog.exec_bind, show (account resp.raw).exec s₄ = (.ok 0, s₄) by
      unfold account
      rw [hfinal.usage]
      rfl]
    dsimp only
    rw [budget_exhausted_limited, hfinal.has_tool_use]
    dsimp only
    rw [show (!false) = true from rfl, if_pos rfl, Prog.exec_bind,
      show (Orchestrator.record .TaskEnded
        [(lit "turn", .number_unsigned (0 : UInt32).toNat)]).exec s₄ = _ from hended]
    simp only [add_zero]
    rfl
  refine ⟨s₅, ?_, h₅⟩
  rw [hn, turns, Prog.exec_bind, hturn]
  rfl

theorem FakeReady.run_refused (h : FakeReady [] s) (hlimit : limit ≠ 0)
    (hreview : FakeProvider.is_decision_review (firstRequest task) = false) :
    ∃ s', (run M task (limited limit)).exec s = (.ok (.error exhausted), s')
      ∧ FakeReady [] s' := by
  refine h.start fun s₀ h₀ => ?_
  obtain ⟨n, hn⟩ := Nat.exists_eq_succ_of_ne_zero (n := limit.toNat)
    fun hzero => hlimit (UInt32.toNat_inj.1 hzero)
  obtain ⟨s₁, hrequested, h₁⟩ := h₀.record .ModelRequested [("turn", .number_unsigned 0)]
  obtain ⟨s₂, hcomplete, h₂⟩ := h₁.refused .Chore hreview
  obtain ⟨tier, s₃, hobserved, h₃⟩ := h₂.observed hcomplete
  obtain ⟨s₄, hdegraded, h₄⟩ := h₃.record .Degraded [("error", .string exhausted.message)]
  have hturn : (turn M task (limited limit) 0 {} (firstRequest task)).exec s₀
      = (.ok (.returned (.error exhausted)), s₄) := by
    unfold turn
    rw [Prog.exec_bind, show (Orchestrator.record .ModelRequested
      [(lit "turn", .number_unsigned (0 : UInt32).toNat)]).exec s₀ = _ from hrequested]
    dsimp only
    rw [Prog.exec_bind, hobserved]
    dsimp only
    rw [Prog.exec_bind, hdegraded]
    rfl
  refine ⟨s₄, ?_, h₄⟩
  rw [hn, turns, Prog.exec_bind, hturn]
  rfl

end Orchestrator

/-! ## An engine -/

namespace Engine

open Orchestrator

variable {W U H : Type}

/-- Runs asked of an engine, one after the other. -/
def runs (M : Machine W U) :
    Engine W U H → List (Str × UInt32) → List (Except Exn RunResult) × Engine W U H
  | engine, [] => ([], engine)
  | engine, (task, max_turns) :: calls =>
    let ran := engine.run M task max_turns
    let rest := runs M ran.2 calls
    (ran.1 :: rest.1, rest.2)

/-- A task that looks like the engine's own request for a decision. -/
def posesAsReview (task : Str) : Bool := starts_with "Decision review:" task

/-- The runs that take the step of the script. -/
def usesScript (budget_turns : UInt32) (call : Str × UInt32) : Bool :=
  (if 0 < call.2 then call.2 else budget_turns) ≠ 0 && !posesAsReview call.1

/-- What a run with the fake provider gives after some others. -/
def fakeResult (budget_turns : UInt32) (earlier : List (Str × UInt32)) (call : Str × UInt32) :
    Except Exn RunResult :=
  if (if 0 < call.2 then call.2 else budget_turns) = 0 then .ok idleResult
  else if posesAsReview call.1 then .ok (doneResult "CONFIRM")
  else if earlier.any (usesScript budget_turns) then .error (.user exhausted.message)
  else .ok (doneResult "DONE")

/-- What is left of the script. -/
def fakeScript (budget_turns : UInt32) (earlier : List (Str × UInt32)) : List Json :=
  if earlier.any (usesScript budget_turns) then [] else [doneStep]

theorem review_firstRequest (task : Str) :
    FakeProvider.is_decision_review (firstRequest task) = posesAsReview task := by
  show ((lit "user" == lit "user") && _) = _
  rw [beq_self_eq_true, Bool.true_and]
  rfl

theorem fakeScript_append (budget_turns : UInt32) (earlier : List (Str × UInt32))
    (call : Str × UInt32) :
    fakeScript budget_turns (earlier ++ [call])
      = if usesScript budget_turns call then [] else fakeScript budget_turns earlier := by
  unfold fakeScript
  rw [List.any_append, List.any_cons, List.any_nil, Bool.or_false]
  cases usesScript budget_turns call <;> cases earlier.any (usesScript budget_turns) <;> rfl

/-- What a run leaves is what the engine is left with. -/
theorem run_of_exec (M : Machine W U) {engine : Engine W U H} {task : Str} {max_turns : UInt32}
    {r : Result RunResult} {sys : Sys W U (FakeProvider × H)}
    (h : (Orchestrator.run M task (limited (engine.max_turns max_turns))).exec engine.sys
      = (.ok r, sys)) :
    engine.run M task max_turns
      = (r.mapError (fun err => .user err.message), { engine with sys := sys }) := by
  unfold run
  rw [show (Orchestrator.run M task
    { max_turns := engine.max_turns max_turns, active := true }).exec engine.sys = _ from h]
  cases r <;> rfl

section Tasks

variable {sys : Sys W U (FakeProvider × H)} {task : Str} {limit : UInt32} {steps : List Json}

/-- A task that poses as a review is confirmed, and takes no step. -/
theorem run_posing (M : Machine W U) (h : FakeReady steps sys) (hlimit : limit ≠ 0)
    (hposes : posesAsReview task = true) :
    ∃ sys', (Orchestrator.run M task (limited limit)).exec sys
        = (.ok (.ok (doneResult "CONFIRM")), sys') ∧ FakeReady steps sys' := by
  refine h.run_answered M task hlimit (show Final FakeProvider.confirm from ⟨rfl, rfl⟩)
    fun s' h' => ?_
  have hcomplete : (FakeProvider.complete (firstRequest task) s'.env.1).1
        = .ok (.ok FakeProvider.confirm)
      ∧ (FakeProvider.complete (firstRequest task) s'.env.1).2.steps = s'.env.1.steps := by
    unfold FakeProvider.complete
    rw [review_firstRequest, if_pos hposes]
    exact ⟨rfl, rfl⟩
  exact h'.answered hcomplete.1 (hcomplete.2.trans h'.script)

/-- The step of the script ends the run that takes it. -/
theorem run_scripted (M : Machine W U) (h : FakeReady [doneStep] sys) (hlimit : limit ≠ 0)
    (hposes : posesAsReview task = false) :
    ∃ sys', (Orchestrator.run M task (limited limit)).exec sys
        = (.ok (.ok (doneResult "DONE")), sys') ∧ FakeReady [] sys' := by
  obtain ⟨resp, hread, hfinal, hplan⟩ : ∃ resp, FakeProvider.readStep doneStep = .ok (.ok resp)
      ∧ Final resp ∧ resp.outcome.plan = "DONE" := ⟨_, rfl, ⟨rfl, rfl⟩, rfl⟩
  rw [← hplan]
  refine h.run_answered M task hlimit hfinal fun s' h' => ?_
  have hcomplete : (FakeProvider.complete (firstRequest task) s'.env.1).1 = .ok (.ok resp)
      ∧ (FakeProvider.complete (firstRequest task) s'.env.1).2.steps = [] := by
    unfold FakeProvider.complete
    simp only [review_firstRequest, hposes, h'.script, Bool.false_eq_true, if_false]
    exact ⟨hread, trivial⟩
  exact h'.answered hcomplete.1 hcomplete.2

end Tasks

theorem run_fake (M : Machine W U) {engine : Engine W U H} {earlier : List (Str × UInt32)}
    (h : FakeReady (fakeScript engine.budget_turns earlier) engine.sys) (task : Str)
    (max_turns : UInt32) :
    ∃ sys, engine.run M task max_turns
        = (fakeResult engine.budget_turns earlier (task, max_turns), { engine with sys := sys })
      ∧ FakeReady (fakeScript engine.budget_turns (earlier ++ [(task, max_turns)])) sys := by
  have hlimit : (if 0 < max_turns then max_turns else engine.budget_turns)
      = engine.max_turns max_turns := rfl
  have huses : usesScript engine.budget_turns (task, max_turns)
      = (decide (engine.max_turns max_turns ≠ 0) && !posesAsReview task) := rfl
  rw [fakeScript_append, huses]
  unfold fakeResult
  dsimp only
  rw [hlimit]
  by_cases hidle : engine.max_turns max_turns = 0
  · obtain ⟨sys, hrun, h'⟩ := h.run_idle M task
    rw [← hidle] at hrun
    refine ⟨sys, ?_, by simpa [hidle] using h'⟩
    rw [run_of_exec M hrun, if_pos hidle]
    rfl
  rw [if_neg hidle]
  by_cases hposes : posesAsReview task = true
  · obtain ⟨sys, hrun, h'⟩ := run_posing M h hidle hposes
    refine ⟨sys, ?_, by simpa [hposes] using h'⟩
    rw [run_of_exec M hrun, if_pos hposes]
    rfl
  rw [if_neg hposes]
  rw [Bool.not_eq_true] at hposes
  have huse : (decide (engine.max_turns max_turns ≠ 0) && !posesAsReview task) = true := by
    simp [hidle, hposes]
  rw [if_pos huse]
  unfold fakeScript at h
  by_cases hany : earlier.any (usesScript engine.budget_turns) = true
  · rw [if_pos hany] at h ⊢
    obtain ⟨sys, hrun, h'⟩ := h.run_refused (M := M) hidle
      ((review_firstRequest task).trans hposes)
    exact ⟨sys, run_of_exec M hrun, h'⟩
  · rw [if_neg hany] at h ⊢
    obtain ⟨sys, hrun, h'⟩ := run_scripted M h hidle hposes
    exact ⟨sys, run_of_exec M hrun, h'⟩

theorem runs_fake (M : Machine W U) : ∀ (calls earlier : List (Str × UInt32))
    (engine : Engine W U H), FakeReady (fakeScript engine.budget_turns earlier) engine.sys →
    (runs M engine calls).1
      = calls.mapIdx fun i call => fakeResult engine.budget_turns (earlier ++ calls.take i) call
  | [], _, _, _ => rfl
  | (task, max_turns) :: calls, earlier, engine, h => by
    obtain ⟨sys, hrun, h'⟩ := run_fake M h task max_turns
    unfold runs
    dsimp only
    rw [hrun, runs_fake M calls (earlier ++ [(task, max_turns)]) _ h', List.mapIdx_cons]
    simp only [List.take_zero, List.append_nil, List.take_succ_cons, List.append_assoc,
      List.singleton_append]

/-- With the fake provider a run without turns is bounded at once and a task that poses as a review
is confirmed. Of the other tasks of an engine only the first is done; each later one is thrown out
as the script is used up. -/
theorem fake_engine_runs (M : Machine W U) (http : HttpPost H) (provider model api_base : Str)
    (budget_turns : UInt32) (world : W) (client : H) (hprovider : provider ≠ lit "openai")
    (calls : List (Str × UInt32)) :
    (runs M (new M http provider model api_base budget_turns world client) calls).1
      = calls.mapIdx fun i call => fakeResult budget_turns (calls.take i) call := by
  have hmake : make_provider M.text http provider model api_base
      = (FakeProvider.provider.beside : Provider (FakeProvider × H)) := by
    unfold make_provider
    rw [if_neg hprovider]
    rfl
  refine runs_fake M calls [] _ ?_
  unfold new
  rw [hmake]
  exact ⟨rfl, ⟨_, rfl, rfl, rfl⟩, fun tier => by cases tier <;> rfl, rfl, rfl⟩

theorem fake_engine_runs_repeated :
    (runs (scriptedMachine (.ofTable []))
      (new (scriptedMachine (.ofTable [])) (fun _ _ _ client => (none, client)) "fake"
        "gpt-4o-mini" [] 8 (fun _ => none) ())
      [(lit "sum up", 0), (lit "Decision review: go", 1), (lit "sum up", 4)]).1
      = [.ok (doneResult "DONE"), .ok (doneResult "CONFIRM"),
        .error (.user exhausted.message)] :=
  (fake_engine_runs (scriptedMachine (.ofTable [])) _ "fake" _ _ 8 _ _ (by decide) _).trans rfl

end Engine

end Praxis
