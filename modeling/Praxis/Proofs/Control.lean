import Praxis.Control

/-!
# The machine does what `run` does

What is left of a run at the head of the loop is what `turns` does from there (`toEnd_head`), so the
moves of the machine lead to what `run` returns or throws (`outcome_start`).
-/

namespace Praxis

namespace Orchestrator

open Effect (Prog Blocks)

variable {W U E : Type} {M : Machine W U} {task : Str} {budget : Budget}

/-- What is left of a run at a point. -/
abbrev toEnd (M : Machine W U) (task : Str) (budget : Budget) (p : Point) : RunM W U E Point :=
  (control M task budget).toEnd p

theorem toEnd_block {p : Point} (h : p.final = false) :
    (toEnd M task budget p : RunM W U E Point)
      = p.block M task budget >>= toEnd M task budget := Blocks.toEnd_block _ h

theorem toEnd_ended (r : Result RunResult) :
    (toEnd M task budget (.ended r) : RunM W U E Point) = pure (.ended r) :=
  Blocks.toEnd_final _ rfl

/-- The calls of a turn are gone over once an event is recorded. -/
theorem exec_calling {l : Loop} {chosen_tier : Tier} {calls : List ToolCall} {q : Point}
    {s s' : Sys W U E}
    (h : ((Point.calling l chosen_tier calls).block M task budget).exec s = (.ok q, s')) :
    ∃ payload s₁ records, (record .WorkingSetRendered payload).exec s = (.ok (), s₁)
      ∧ (run_calls M calls (build_call_views s₁.self.registry calls)).exec s₁ = (.ok records, s')
      ∧ q = .called l chosen_tier (build_call_views s₁.self.registry calls) records := by
  obtain ⟨working, s₁, h₁, hrest₁⟩ := Prog.exec_bind_eq_ok.1 h
  obtain ⟨_, s₂, h₂, hrest₂⟩ := Prog.exec_bind_eq_ok.1 hrest₁
  obtain ⟨views, s₃, h₃, hrest₃⟩ := Prog.exec_bind_eq_ok.1 hrest₂
  obtain ⟨records, s₄, h₄, hrest₄⟩ := Prog.exec_bind_eq_ok.1 hrest₃
  cases h₁
  cases h₃
  cases hrest₄
  exact ⟨_, s₂, records, h₂, h₄, rfl⟩

/-- From the calls of a turn on. -/
theorem toEnd_calling (l : Loop) (chosen_tier : Tier) (calls : List ToolCall) :
    (toEnd M task budget (.calling l chosen_tier calls) : RunM W U E Point)
      = (tool_phase M task chosen_tier calls l.messages >>= fun messages =>
          toEnd M task budget (.head { l with i := l.i + 1, messages := messages })) := by
  rw [toEnd_block rfl]
  unfold Point.block tool_phase
  simp only [bind_assoc, pure_bind]
  refine bind_congr fun working => bind_congr fun _ => bind_congr fun views =>
    bind_congr fun records => ?_
  rw [toEnd_block rfl]
  unfold Point.block
  simp only [bind_assoc, pure_bind]
  refine bind_congr fun fed => bind_congr fun messages => ?_
  rw [toEnd_block rfl]
  unfold Point.block
  simp only [bind_assoc, pure_bind]

/-- From the decision on the calls of a turn on. -/
theorem toEnd_reviewing (l : Loop) (chosen_tier : Tier) (plan : Str) (calls : List ToolCall) :
    (toEnd M task budget (.reviewing l chosen_tier plan calls) : RunM W U E Point)
      = (decision_review l.i l.messages plan calls >>= fun
        | .ended final_output => pure
            (.ended (.ok { l.result with completed := true, final_output := final_output }))
        | .run calls => toEnd M task budget (.calling l chosen_tier calls)) := by
  rw [toEnd_block rfl]
  unfold Point.block decision_review
  simp only [bind_assoc, pure_bind]
  refine bind_congr fun (decision_tier, response) => ?_
  rw [toEnd_block rfl]
  cases response with
  | error err =>
    unfold Point.block
    simp only [bind_assoc, pure_bind]
  | ok resp =>
    unfold Point.block
    dsimp only
    rcases overridePlan resp.outcome.plan with _ | override_plan
    · simp only [pure_bind]
    · simp only [bind_assoc]
      refine bind_congr fun _ => bind_congr fun _ => ?_
      split_ifs
      · simp only [bind_assoc, pure_bind, toEnd_ended]
      · simp only [pure_bind]

/-- From the head of a loop with turns to go on. -/
theorem toEnd_head_succ (remaining : ℕ) (i : UInt32) (result : RunResult) (messages : Messages) :
    (toEnd M task budget (.head ⟨remaining + 1, i, result, messages⟩) : RunM W U E Point)
      = (turn M task budget i result messages >>= fun
        | .next result messages => toEnd M task budget (.head ⟨remaining, i + 1, result, messages⟩)
        | .returned r => pure (.ended r)
        | .broken result => finish result >>= fun r => pure (.ended r)) := by
  rw [toEnd_block rfl]
  unfold Point.block turn
  simp only [bind_assoc, pure_bind]
  refine bind_congr fun _ => ?_
  rw [toEnd_block rfl]
  unfold Point.block
  simp only [bind_assoc, pure_bind]
  refine bind_congr fun (chosen_tier, response) => ?_
  rw [toEnd_block rfl]
  cases response with
  | error err =>
    unfold Point.block
    simp only [bind_assoc, pure_bind, toEnd_ended]
  | ok resp =>
    unfold Point.block
    simp only [bind_assoc]
    refine bind_congr fun _ => bind_congr fun turn_cost => ?_
    rcases budget_exhausted budget (result.cost + turn_cost) with _ | reason
    · dsimp only
      split_ifs
      · simp only [bind_assoc, pure_bind, toEnd_ended]
      · simp only [bind_assoc, pure_bind]
        refine bind_congr fun calls => bind_congr fun _ => ?_
        rw [toEnd_reviewing]
        refine bind_congr fun review => ?_
        cases review with
        | ended final_output => simp only [pure_bind]
        | run calls => simp only [bind_assoc, pure_bind, toEnd_calling]
    · simp only [bind_assoc, pure_bind]
      refine bind_congr fun _ => ?_
      rw [toEnd_block rfl]
      unfold Point.block
      simp only [bind_assoc, pure_bind, toEnd_ended]

theorem toEnd_head :
    ∀ (remaining : ℕ) (i : UInt32) (result : RunResult) (messages : Messages),
      (toEnd M task budget (.head ⟨remaining, i, result, messages⟩) : RunM W U E Point)
        = turns M task budget remaining i result messages >>= fun r => pure (.ended r)
  | 0, i, result, messages => by
    rw [toEnd_block rfl]
    unfold Point.block turns
    simp only [pure_bind]
    rw [toEnd_block rfl]
    unfold Point.block
    simp only [bind_assoc, pure_bind, toEnd_ended]
  | remaining + 1, i, result, messages => by
    rw [toEnd_head_succ]
    unfold turns
    simp only [bind_assoc]
    refine bind_congr fun ended => ?_
    cases ended with
    | next result messages => exact toEnd_head remaining _ _ _
    | returned r => simp only [pure_bind]
    | broken result => rfl

/-- The machine ends in the result of `run`, or in the exception that `run` throws. -/
theorem toEnd_start (M : Machine W U) (task : Str) (budget : Budget) :
    (toEnd M task budget .start : RunM W U E Point)
      = run M task budget >>= fun r => pure (.ended r) := by
  rw [toEnd_block rfl]
  unfold Point.block run
  simp only [bind_assoc, pure_bind]
  refine bind_congr fun _ => bind_congr fun _ => ?_
  exact toEnd_head _ _ _ _

/-- What `run` throws or returns is what the moves lead to. -/
theorem outcome_start (M : Machine W U) (task : Str) (budget : Budget) (s : Sys W U E) :
    (control M task budget).outcome (.ok .start, s) = match (run M task budget).exec s with
      | (.ok r, s') => (.ok (.ended r), s')
      | (.error e, s') => (.error e, s') := by
  have h := congrFun (toEnd_start M task budget) s
  refine h.trans ?_
  show (run M task budget >>= fun r => pure (Point.ended r) : RunM W U E Point).exec s = _
  rw [Prog.exec_bind]
  rcases (run M task budget).exec s with ⟨e | r, s'⟩ <;> rfl

theorem stop_moves {s s' : Sys W U E} {r : Result RunResult}
    (h : (run M task budget).exec s = (.ok r, s')) :
    Blocks.stop (.ok .start, s) (moves M task budget s) = (.ok (.ended r), s') := by
  have houtcome := outcome_start M task budget s
  rw [h] at houtcome
  exact houtcome

/-- A move runs the block of its point. -/
theorem exec_of_advance {p : Point} {s : Sys W U E} {c : Config W U E}
    (h : (control M task budget).advance (.ok p, s) = some c) :
    p.final = false ∧ (p.block M task budget).exec s = c := by
  unfold Blocks.advance at h
  dsimp only at h
  split_ifs at h with hp
  exact ⟨Bool.eq_false_of_not_eq_true hp, Option.some.inj h⟩

/-- A move that leads to a point leads to one that can follow. -/
theorem next_of_advance {p q : Point} {s s' : Sys W U E}
    (h : (control M task budget).advance (.ok p, s) = some (.ok q, s')) :
    Point.Next M task budget p q := by
  obtain ⟨hfinal, hexec⟩ := exec_of_advance h
  exact Point.next_block p hfinal s q s' hexec

/-- The state after a run is the one its moves lead to. -/
theorem stop_moves_snd (M : Machine W U) (task : Str) (budget : Budget) (s : Sys W U E) :
    (Blocks.stop (.ok .start, s) (moves M task budget s)).2 = ((run M task budget).exec s).2 := by
  refine (congrArg Prod.snd (outcome_start M task budget s)).trans ?_
  rcases (run M task budget).exec s with ⟨e | r, s'⟩ <;> rfl

/-- What holds before the first run, is carried over by each move and from each run to the next
holds all along a session. -/
theorem along_session {runs : List (Str × Budget)} :
    ∀ {Q : List (Config W U E × Config W U E) → Config W U E → Prop} {s : Sys W U E},
      Q [] (.ok .start, s) → (∀ ms d, Q ms d → Q ms (.ok .start, d.2)) →
      (∀ task budget ms d d', Q ms d → (control M task budget).advance d = some d' →
        Q (ms ++ [(d, d')]) d') →
      ∀ {ms : List (Config W U E × Config W U E)}, ms <+: sessionMoves M runs s →
        Q ms (Blocks.stop (.ok .start, s) ms) := by
  induction runs with
  | nil =>
    intro Q s hstart _ _ ms hms
    obtain rfl := List.prefix_nil.1 hms
    exact hstart
  | cons first runs ih =>
    intro Q s hstart hnext hmove ms hms
    have hrun : ∀ {ms}, ms <+: moves M first.1 first.2 s →
        Q ms (Blocks.stop (.ok .start, s) ms) := fun hms =>
      Blocks.along _ hstart (hmove first.1 first.2) hms
    rcases List.prefix_or_prefix_of_prefix hms (List.prefix_append _ _) with hms | ⟨later, rfl⟩
    · exact hrun hms
    · rw [sessionMoves, List.prefix_append_right_inj] at hms
      have hfirst := hnext _ _ (hrun (List.prefix_refl _))
      rw [stop_moves_snd] at hfirst
      cases later with
      | nil => simpa using hrun (List.prefix_refl _)
      | cons m later =>
        have hlater := ih (Q := fun later d => Q (moves M first.1 first.2 s ++ later) d)
          (by rwa [List.append_nil]) (fun later d => hnext _ d)
          (fun task budget ms d d' hQ h => by
            rw [← List.append_assoc]
            exact hmove task budget _ d d' hQ h) hms
        rw [Blocks.stop_append]
        exact hlater

theorem completions_snoc (ms : List (Config W U E × Config W U E)) (m) :
    completions (ms ++ [m]) = completions ms ++ (completionOf m).toList := by
  rw [completions, List.filterMap_append, ← completions]
  rcases h : completionOf m with _ | c <;> simp [h]

/-! ## Scripted runs -/

/-- A provider that answers from a script, whatever it is asked. -/
def scripted : Provider (List ModelResponse) where
  complete := fun _ script => match script with
    | [] => (.ok (.error { kind := .Cancelled, message := "script exhausted" }), [])
    | response :: script => (.ok (.ok response), script)

/-- An answer that proposes no calls. -/
def answer (plan : Str) : ModelResponse where
  outcome := { plan := plan }
  raw := .ofFields [("plan", .string plan)]

/-- An answer that proposes one call. -/
def proposal (name arguments : Str) : ModelResponse where
  outcome := { plan := "go on", has_tool_use := true, tool_count := 1 }
  raw := .ofFields
    [("tool_calls", .array [.ofFields [("name", .string name), ("arguments", .string arguments)]])]

/-- A flat file system on which nothing is interleaved. -/
def scriptedMachine (text : JsonText) : Machine FlatFs Empty where
  text := text
  platform := flatPlatform fun _ _ => []
  scheduler := .inOrder

/-- A new orchestrator without tools, before a script. -/
def scriptedStart (options : OrchestratorOptions) (script : List ModelResponse) :
    Sys FlatFs Empty (List ModelResponse) where
  self := ofProvider scripted options
  world := fun _ => none
  env := script

end Orchestrator

end Praxis
