import Praxis.Proofs.Splice

/-!
# The events of a run

A run records that it starts, then its full turns, and then how it ends. Each part of a turn is
given by the kinds of the events that it records; what the tools, the providers and the cache do
decides only how many there are of some kinds.
-/

namespace Praxis

namespace Orchestrator

open Effect (Prog Emits)

variable {W U E α : Type}

def kinds (es : List Event) : List EventKind := es.map (·.kind)

@[simp] theorem kinds_append (es es' : List Event) : kinds (es ++ es') = kinds es ++ kinds es' :=
  List.map_append

theorem kind_mem {e : Event} {es : List Event} (h : e ∈ es) : e.kind ∈ kinds es :=
  List.mem_map_of_mem h

/-- What a part of the run that returns has recorded. -/
abbrev Records (x : RunM W U E α) (Q : α → List Event → Prop) : Prop :=
  Emits (fun s => s.self.replay.events) x Q

def FullTurn (es : List Event) : Prop :=
  (∃ overrides hits finished effects, overrides ≤ 1 ∧ hits ≤ finished ∧ effects ≤ 1
    ∧ kinds es = [.ModelRequested, .ModelResponded, .ToolCalled]
      ++ List.replicate overrides .Degraded ++ [.WorkingSetRendered]
      ++ List.replicate hits .CacheHit ++ List.replicate finished .ToolFinished
      ++ List.replicate effects .WorkingSetRendered)
  ∧ ∀ e ∈ es, e.kind = .Degraded → e.payload.contains "decision_override"

/-- The cost has reached the limit of an active budget. -/
def CostReached (budget : Budget) (cost : ℚ) : Prop :=
  budget.active = true ∧ 0 < budget.max_cost ∧ budget.max_cost ≤ cost

/-- The five ways a run ends, by the kinds of the events after its full turns and by its result. -/
inductive Ends (budget : Budget) : List EventKind → Result RunResult → Prop
  | failed {err} : Ends budget [.ModelRequested, .Degraded] (.error err)
  | answered {result : RunResult} : result.completed = true → result.bounded = false →
    ¬ CostReached budget result.cost →
    Ends budget [.ModelRequested, .ModelResponded, .TaskEnded] (.ok result)
  | overridden {result : RunResult} : result.completed = true → result.bounded = false →
    ¬ CostReached budget result.cost →
    Ends budget [.ModelRequested, .ModelResponded, .ToolCalled, .Degraded, .TaskEnded] (.ok result)
  | max_cost {result : RunResult} : result.completed = false → result.bounded = true →
    CostReached budget result.cost → result.bounded_reason = lit "max_cost" →
    Ends budget [.ModelRequested, .ModelResponded, .BudgetHit] (.ok result)
  | max_turns {result : RunResult} : result.completed = false → result.bounded = true →
    ¬ CostReached budget result.cost → result.bounded_reason = lit "max_turns" →
    Ends budget [.BudgetHit] (.ok result)

namespace Ends

variable {budget : Budget} {ks : List EventKind} {r : Result RunResult} {result : RunResult}

theorem failed_iff (h : Ends budget ks r) :
    ks = [.ModelRequested, .Degraded] ↔ ∃ err, r = .error err := by
  cases h <;> simp

theorem completed_iff (h : Ends budget ks r) :
    ks = [.ModelRequested, .ModelResponded, .TaskEnded]
        ∨ ks = [.ModelRequested, .ModelResponded, .ToolCalled, .Degraded, .TaskEnded]
      ↔ ∃ result, r = .ok result ∧ result.completed = true := by
  cases h <;> simp_all

theorem bounded_iff (h : Ends budget ks r) :
    (∃ result, r = .ok result
        ∧ (ks = [.ModelRequested, .ModelResponded, .BudgetHit]
            ∧ result.bounded_reason = lit "max_cost"
          ∨ ks = [.BudgetHit] ∧ result.bounded_reason = lit "max_turns"))
      ↔ ∃ result, r = .ok result ∧ result.bounded = true := by
  cases h <;> simp_all

theorem completed_eq (h : Ends budget ks (.ok result)) : result.completed = !result.bounded := by
  cases h <;> simp_all

theorem max_cost_iff (h : Ends budget ks (.ok result)) :
    ks = [.ModelRequested, .ModelResponded, .BudgetHit] ↔ CostReached budget result.cost := by
  cases h <;> simp_all

end Ends

theorem records_modifySelf {f : Orchestrator W U E → Orchestrator W U E}
    {Q : Unit → List Event → Prop}
    (hf : ∀ self, (f self).replay = self.replay) (h : Q () []) : Records (modifySelf f) Q :=
  Emits.step (fun s => by rw [hf]) fun _ => h

theorem records_complete_for {role : Role} {messages : Messages} :
    Records (complete_for role messages : RunM W U E _) fun _ es => es = [] := by
  refine Emits.quiet fun s a s' hx => ?_
  unfold complete_for at hx
  rw [Prog.exec_of] at hx
  dsimp only at hx
  split at hx <;> obtain rfl := (Prod.mk.inj hx).2 <;> exact ⟨rfl, rfl⟩

theorem records_complete_and_observe {role : Role} {messages : Messages} :
    Records (complete_and_observe role messages : RunM W U E _) fun _ es => es = [] := by
  unfold complete_and_observe
  refine Emits.bindQuiet (Emits.step (fun _ => rfl) fun _ => rfl) fun tier => ?_
  refine Emits.bindQuiet records_complete_for fun response => ?_
  refine Emits.bindQuiet (records_modifySelf (fun _ => rfl) rfl) fun _ => ?_
  exact Emits.pure rfl

theorem records_account {raw : Json} :
    Records (account raw : RunM W U E _) fun _ es => es = [] := by
  unfold account
  split
  · exact Emits.pure rfl
  · refine Emits.bindQuiet (Emits.ofExcept fun _ _ => rfl) fun prompt => ?_
    refine Emits.bindQuiet (Emits.ofExcept fun _ _ => rfl) fun completion => ?_
    exact Emits.step (fun _ => rfl) fun _ => rfl

theorem records_execute_pending {M : Machine W U} {pending : List ToolCall} :
    Records (execute_pending M pending : RunM W U E _) fun _ es => es = [] := by
  unfold execute_pending
  split_ifs
  · exact Emits.pure rfl
  · refine Emits.quiet fun s a s' hx => ?_
    obtain rfl := (Prod.mk.inj hx).2
    exact ⟨rfl, rfl⟩

theorem records_take_snapshot {M : Machine W U} :
    Records (take_snapshot M : RunM W U E _) fun _ es => es = [] := by
  refine Emits.quiet fun s a s' hx => ?_
  unfold take_snapshot at hx
  rw [Prog.exec_of] at hx
  dsimp only at hx
  split_ifs at hx
  · obtain rfl := (Prod.mk.inj hx).2
    exact ⟨rfl, rfl⟩
  · split at hx <;> obtain rfl := (Prod.mk.inj hx).2 <;> exact ⟨rfl, rfl⟩

theorem records_record {kind : EventKind} {payload : List (Str × Json)} :
    Records (record kind payload : RunM W U E _) fun _ es =>
      ∃ e : Event, es = [e] ∧ e.kind = kind ∧ e.payload = .ofFields payload := by
  intro s a s' hx
  obtain rfl := (Prod.mk.inj hx).2
  exact ⟨_, rfl, _, rfl, rfl, rfl⟩

theorem records_kind {kind : EventKind} {payload : List (Str × Json)} :
    Records (record kind payload : RunM W U E _) fun _ es => kinds es = [kind] :=
  records_record.mono fun _ _ ⟨_, hes, hkind, _⟩ => by rw [hes, ← hkind]; rfl

theorem records_lookup_call {view : CallView} :
    Records (lookup_call view : RunM W U E _) fun cached es =>
      kinds es = List.replicate (if cached.isSome then 1 else 0) .CacheHit := by
  unfold lookup_call
  refine Emits.bindQuiet (Emits.step (fun _ => rfl) fun _ => rfl) fun cached => ?_
  refine Emits.bindQuiet (records_modifySelf (fun _ => rfl) rfl) fun _ => ?_
  cases cached with
  | none => exact Emits.pure rfl
  | some output =>
    refine Emits.bind records_kind fun _ es hes => Emits.pure ?_
    simpa using hes

theorem records_lookup_calls :
    ∀ {calls : List (ToolCall × CallView)} {i : ℕ},
      Records (lookup_calls i calls : RunM W U E _) fun found es =>
        kinds es = List.replicate found.2.length .CacheHit ∧ found.2.length ≤ calls.length
  | [], i => Emits.pure ⟨rfl, le_rfl⟩
  | (call, view) :: calls, i => by
    unfold lookup_calls
    refine Emits.bind records_lookup_call fun cached es hes => ?_
    refine Emits.bind records_lookup_calls ?_
    rintro found es' ⟨hes', hle⟩
    cases cached with
    | none =>
      refine Emits.pure ⟨?_, Nat.le_succ_of_le hle⟩
      simp only [List.append_nil, kinds_append, hes, hes', Option.isSome_none]
      rfl
    | some output =>
      refine Emits.pure ⟨?_, Nat.succ_le_succ hle⟩
      simp only [List.append_nil, kinds_append, hes, hes', Option.isSome_some, if_true,
        List.length_cons, List.replicate_succ, List.replicate_zero, List.cons_append,
        List.nil_append]

theorem records_run_calls {M : Machine W U} {calls : List ToolCall} {views : List CallView} :
    Records (run_calls M calls views : RunM W U E _) fun records es =>
      ∃ hits ≤ records.length, kinds es = List.replicate hits .CacheHit := by
  unfold run_calls
  refine Emits.bind records_lookup_calls ?_
  rintro found es ⟨hes, hle⟩
  refine Emits.bindQuiet records_execute_pending fun executed => ?_
  refine Emits.step (fun _ => rfl) fun _ => ⟨found.2.length, ?_, ?_⟩
  · rw [splice_length]
    exact hle.trans (by simp)
  · simpa using hes

theorem records_record_result {M : Machine W U} {chosen_tier : Tier} {views : List CallView}
    {rec : ToolExecutionRecord} :
    Records (record_result M chosen_tier views rec : RunM W U E _) fun _ es =>
      kinds es = [.ToolFinished] := by
  unfold record_result
  refine Emits.bindQuiet (records_modifySelf (fun _ => rfl) rfl) fun _ => ?_
  refine Emits.bind records_kind fun _ es hes => ?_
  refine Emits.bindQuiet (records_modifySelf (fun self => ?_) rfl) fun _ => ?_
  · split_ifs <;> rfl
  refine Emits.bindQuiet (records_modifySelf (fun self => ?_) rfl) fun _ => ?_
  · unfold cache_result
    split_ifs
    · split <;> rfl
    · rfl
  refine Emits.bindQuiet (Emits.ofExcept fun _ _ => rfl) fun body => ?_
  refine Emits.bindQuiet (Emits.step (fun _ => rfl) fun _ => rfl) fun fact_id => ?_
  exact Emits.pure (by simpa using hes)

theorem records_record_results {M : Machine W U} {chosen_tier : Tier} {views : List CallView} :
    ∀ {records : List ToolExecutionRecord} {turn_ctx : TurnContext} {messages : Messages},
      Records (record_results M chosen_tier views records turn_ctx messages : RunM W U E _)
        fun _ es => kinds es = List.replicate records.length .ToolFinished
  | [], _, _ => Emits.pure rfl
  | rec :: records, turn_ctx, messages => by
    rw [record_results_cons]
    refine Emits.bind records_record_result fun told es hes => ?_
    refine records_record_results.mono fun _ es' hes' => ?_
    rw [kinds_append, hes, hes']
    rfl

theorem records_apply_side_effects {M : Machine W U} :
    Records (apply_side_effects M : RunM W U E _) fun _ es =>
      ∃ effects ≤ 1, kinds es = List.replicate effects .WorkingSetRendered := by
  unfold apply_side_effects
  refine Emits.bindQuiet (Emits.quiet fun s a s' hx => ?_) fun changed => ?_
  · obtain rfl := (Prod.mk.inj hx).2
    exact ⟨rfl, rfl⟩
  split_ifs
  · exact Emits.pure ⟨0, Nat.zero_le 1, rfl⟩
  · refine Emits.bind records_kind fun _ es hes => ?_
    exact records_modifySelf (fun _ => rfl) ⟨1, le_rfl, by simpa using hes⟩

theorem records_tool_phase {M : Machine W U} {task : Str} {chosen_tier : Tier}
    {calls : List ToolCall} {messages : Messages} :
    Records (tool_phase M task chosen_tier calls messages : RunM W U E _) fun _ es =>
      ∃ hits finished effects, hits ≤ finished ∧ effects ≤ 1
        ∧ kinds es = [.WorkingSetRendered] ++ List.replicate hits .CacheHit
          ++ List.replicate finished .ToolFinished
          ++ List.replicate effects .WorkingSetRendered := by
  unfold tool_phase
  refine Emits.bindQuiet (Emits.step (fun _ => rfl) fun _ => rfl) fun working => ?_
  refine Emits.bind records_kind fun _ es₁ hes₁ => ?_
  refine Emits.bindQuiet (Emits.step (fun _ => rfl) fun _ => rfl) fun views => ?_
  refine Emits.bind records_run_calls fun records es₂ ⟨hits, hle, hes₂⟩ => ?_
  refine Emits.bind records_record_results fun (turn_ctx, messages) es₃ hes₃ => ?_
  refine Emits.bindQuiet (Emits.step (fun _ => rfl) fun _ => rfl) fun messages => ?_
  refine Emits.bind records_apply_side_effects fun _ es₄ ⟨effects, hone, hes₄⟩ => ?_
  refine Emits.pure ⟨hits, records.length, effects, hle, hone, ?_⟩
  simp only [List.append_nil, kinds_append, hes₁, hes₂, hes₃, hes₄, List.append_assoc]

/-- What a review records: an override, if the decision model gave one, and the end of the run, if
there was no call to drop. -/
theorem records_decision_review {turn : UInt32} {messages : Messages} {plan : Str}
    {calls : List ToolCall} :
    Records (decision_review turn messages plan calls : RunM W U E _) fun review es =>
      match review with
      | .run _ => ∃ overrides ≤ 1, kinds es = List.replicate overrides .Degraded
          ∧ ∀ e ∈ es, e.payload.contains "decision_override"
      | .ended _ => kinds es = [.Degraded, .TaskEnded] := by
  unfold decision_review
  refine Emits.bindQuiet records_complete_and_observe ?_
  rintro ⟨decision_tier, response⟩
  have hsilent : ∃ overrides ≤ 1, kinds [] = List.replicate overrides .Degraded
      ∧ ∀ e ∈ ([] : List Event), e.payload.contains "decision_override" :=
    ⟨0, Nat.zero_le 1, rfl, by simp⟩
  cases response with
  | error err =>
    refine Emits.bindQuiet (records_modifySelf (fun _ => rfl) rfl) fun _ => ?_
    exact Emits.pure hsilent
  | ok resp =>
    dsimp only
    split
    · exact Emits.pure hsilent
    · next override_plan _ =>
      refine Emits.bind records_record ?_
      rintro _ _ ⟨e, rfl, hkind, hpayload⟩
      refine Emits.bindQuiet (records_modifySelf (fun _ => rfl) rfl) fun _ => ?_
      split_ifs
      · refine Emits.bind records_kind fun _ es hes => Emits.pure ?_
        simp only [List.append_nil, kinds_append, hes]
        exact congrArg (· :: [EventKind.TaskEnded]) hkind
      · refine Emits.pure ⟨1, le_rfl, congrArg (· :: []) hkind, fun e' he' => ?_⟩
        obtain rfl := List.mem_singleton.1 (by simpa using he')
        rw [hpayload]
        rfl

theorem budget_exhausted_eq_some {budget : Budget} {cost : ℚ} {reason : Str}
    (h : budget_exhausted budget cost = some reason) :
    reason = lit "max_cost" ∧ CostReached budget cost := by
  unfold budget_exhausted at h
  split_ifs at h with hactive hcost
  cases h
  exact ⟨rfl, by simpa using hactive, hcost⟩

theorem budget_exhausted_eq_none {budget : Budget} {cost : ℚ}
    (h : budget_exhausted budget cost = none) : ¬ CostReached budget cost := by
  rintro ⟨hactive, hcost⟩
  unfold budget_exhausted at h
  rw [if_neg (by simpa using hactive), if_pos hcost] at h
  cases h

/-- A result of the turns so far, of a run that goes on. -/
structure Going (budget : Budget) (result : RunResult) : Prop where
  completed : result.completed = false
  bounded : result.bounded = false
  cost : ¬ CostReached budget result.cost

/-- What a turn records and what becomes of the result. -/
def TurnTrace (budget : Budget) (turns : UInt32) : TurnEnd → List Event → Prop
  | .next result _, es =>
    FullTurn es ∧ Going budget result ∧ result.turns = turns
  | .returned r, es =>
    Ends budget (kinds es) r ∧ (kinds es).count .ModelRequested = 1
      ∧ ∀ result, r = .ok result → result.turns = turns
  | .broken result, es =>
    Ends budget (kinds es) (.ok result) ∧ (kinds es).count .ModelRequested = 1
      ∧ result.bounded = true ∧ result.turns = turns

/-- A full turn is put together from what its parts record. -/
theorem fullTurn_of_parts {es₁ es₂ es₃ es₄ es₅ : List Event} {overrides : ℕ}
    (hes₁ : kinds es₁ = [.ModelRequested]) (hes₂ : kinds es₂ = [.ModelResponded])
    (hes₃ : kinds es₃ = [.ToolCalled]) (hes₄ : kinds es₄ = List.replicate overrides .Degraded)
    (hone : overrides ≤ 1) (hpayload : ∀ e ∈ es₄, e.payload.contains "decision_override")
    (hes₅ : ∃ hits finished effects, hits ≤ finished ∧ effects ≤ 1
      ∧ kinds es₅ = [.WorkingSetRendered] ++ List.replicate hits .CacheHit
        ++ List.replicate finished .ToolFinished ++ List.replicate effects .WorkingSetRendered) :
    FullTurn (es₁ ++ (es₂ ++ (es₃ ++ (es₄ ++ es₅)))) := by
  obtain ⟨hits, finished, effects, hle, heffects, hes₅⟩ := hes₅
  constructor
  · refine ⟨overrides, hits, finished, effects, hone, hle, heffects, ?_⟩
    simp only [List.nil_append, kinds_append, hes₁, hes₂, hes₃, hes₄, hes₅, List.append_assoc,
      List.cons_append]
  · intro e he hkind
    simp only [List.mem_append] at he
    -- only the review records anything of this kind
    rcases he with he | he | he | he | he
    · exact absurd (kind_mem he) (by simp [hes₁, hkind])
    · exact absurd (kind_mem he) (by simp [hes₂, hkind])
    · exact absurd (kind_mem he) (by simp [hes₃, hkind])
    · exact hpayload e he
    · exact absurd (kind_mem he) (by simp [hes₅, hkind])

theorem records_turn {M : Machine W U} {task : Str} {budget : Budget} {i : UInt32}
    {result : RunResult} {messages : Messages} (hg : Going budget result) :
    Records (turn M task budget i result messages : RunM W U E _) (TurnTrace budget (i + 1)) := by
  unfold turn
  refine Emits.bind records_kind fun _ es₁ hes₁ => ?_
  refine Emits.bindQuiet records_complete_and_observe ?_
  rintro ⟨chosen_tier, response⟩
  cases response with
  | error err =>
    refine Emits.bind records_kind fun _ es₂ hes₂ => ?_
    have hes : kinds (es₁ ++ (es₂ ++ [])) = [.ModelRequested, .Degraded] := by
      simp [hes₁, hes₂]
    exact Emits.pure ⟨hes ▸ .failed, hes ▸ rfl, nofun⟩
  | ok resp =>
    refine Emits.bind records_kind fun _ es₂ hes₂ => ?_
    refine Emits.bindQuiet records_account fun turn_cost => ?_
    dsimp only
    split
    · next reason hreason =>
      obtain ⟨rfl, hcost⟩ := budget_exhausted_eq_some hreason
      refine Emits.bind records_kind fun _ es₃ hes₃ => ?_
      have hes : kinds (es₁ ++ (es₂ ++ (es₃ ++ [])))
          = [.ModelRequested, .ModelResponded, .BudgetHit] := by
        simp [hes₁, hes₂, hes₃]
      exact Emits.pure ⟨hes ▸ .max_cost hg.completed rfl hcost rfl, hes ▸ rfl, rfl, rfl⟩
    · next hreason =>
      have hcost := budget_exhausted_eq_none hreason
      split_ifs
      · refine Emits.bind records_kind fun _ es₃ hes₃ => ?_
        have hes : kinds (es₁ ++ (es₂ ++ (es₃ ++ [])))
            = [.ModelRequested, .ModelResponded, .TaskEnded] := by
          simp [hes₁, hes₂, hes₃]
        refine Emits.pure ⟨hes ▸ .answered rfl hg.bounded hcost, hes ▸ rfl, fun _ h => ?_⟩
        cases h
        rfl
      · refine Emits.bindQuiet (Emits.ofExcept fun _ _ => rfl) fun calls => ?_
        refine Emits.bind records_kind fun _ es₃ hes₃ => ?_
        refine Emits.bind records_decision_review fun review es₄ hes₄ => ?_
        cases review with
        | ended final_output =>
          have hes : kinds (es₁ ++ (es₂ ++ (es₃ ++ (es₄ ++ []))))
              = [.ModelRequested, .ModelResponded, .ToolCalled, .Degraded, .TaskEnded] := by
            simp [hes₁, hes₂, hes₃, show kinds es₄ = _ from hes₄]
          refine Emits.pure ⟨hes ▸ .overridden rfl hg.bounded hcost, hes ▸ rfl, fun _ h => ?_⟩
          cases h
          rfl
        | run calls =>
          obtain ⟨overrides, hone, hes₄, hpayload⟩ := hes₄
          refine Emits.bind records_tool_phase fun messages es₅ hes₅ => ?_
          refine Emits.pure ⟨?_, ⟨hg.completed, hg.bounded, hcost⟩, rfl⟩
          rw [List.append_nil]
          exact fullTurn_of_parts hes₁ hes₂ hes₃ hes₄ hone hpayload hes₅

theorem FullTurn.count {es : List Event} (h : FullTurn es) :
    (kinds es).count .ModelRequested = 1 := by
  obtain ⟨⟨overrides, hits, finished, effects, -, -, -, hes⟩, -⟩ := h
  simp [hes, List.count_replicate]

theorem records_finish {result : RunResult} :
    Records (finish result : RunM W U E _) fun r es =>
      if result.bounded then es = [] ∧ r = .ok result
      else kinds es = [.BudgetHit]
        ∧ r = .ok { result with bounded := true, bounded_reason := "max_turns" } := by
  unfold finish
  split_ifs
  · exact Emits.pure ⟨rfl, rfl⟩
  · exact Emits.bind records_kind fun _ es hes => Emits.pure ⟨by simpa using hes, rfl⟩

/-- Full turns and an ending, of a run that had done so many turns and may do so many in all. -/
def RunTrace (budget : Budget) (done limit : ℕ) (r : Result RunResult) (es : List Event) : Prop :=
  ∃ (ts : List (List Event)) (ending : List Event), es = ts.flatten ++ ending
    ∧ (∀ t ∈ ts, FullTurn t) ∧ Ends budget (kinds ending) r
    ∧ ∀ result, r = .ok result →
      result.turns.toNat = done + (kinds es).count .ModelRequested ∧ result.turns.toNat ≤ limit

theorem RunTrace.cons {budget : Budget} {done limit : ℕ} {r : Result RunResult}
    {t es : List Event} (ht : FullTurn t) (h : RunTrace budget (done + 1) limit r es) :
    RunTrace budget done limit r (t ++ es) := by
  obtain ⟨ts, ending, rfl, hts, hends, hturns⟩ := h
  refine ⟨t :: ts, ending, (List.append_assoc ..).symm, ?_, hends, fun result hr => ?_⟩
  · exact List.forall_mem_cons.2 ⟨ht, hts⟩
  · obtain ⟨hcount, hle⟩ := hturns result hr
    rw [kinds_append, List.count_append, ht.count]
    exact ⟨by omega, hle⟩

theorem RunTrace.last {budget : Budget} {i : UInt32} {done limit : ℕ} {r : Result RunResult}
    {es : List Event} (hends : Ends budget (kinds es) r)
    (hcount : (kinds es).count .ModelRequested = 1) (hi : i.toNat = done + 1) (hle : done < limit)
    (hturns : ∀ result, r = .ok result → result.turns = i) :
    RunTrace budget done limit r es := by
  refine ⟨[], es, rfl, by simp, hends, fun result hr => ?_⟩
  rw [hturns result hr, hi, hcount]
  exact ⟨rfl, hle⟩

theorem records_turns {M : Machine W U} {task : Str} {budget : Budget} :
    ∀ {remaining : ℕ} {i : UInt32} {result : RunResult} {messages : Messages},
      i.toNat + remaining < 2 ^ 32 → Going budget result → result.turns = i →
      Records (turns M task budget remaining i result messages : RunM W U E _)
        (RunTrace budget i.toNat (i.toNat + remaining))
  | 0, i, result, messages, _, hg, hturns => by
    unfold turns
    refine records_finish.mono fun r es h => ?_
    rw [hg.bounded] at h
    obtain ⟨hes, rfl⟩ := h
    refine ⟨[], es, rfl, by simp, hes ▸ .max_turns hg.completed rfl hg.cost rfl,
      fun result' hr => ?_⟩
    cases hr
    simp [hes, hturns]
  | remaining + 1, i, result, messages, hi, hg, _ => by
    have hsucc : (i + 1).toNat = i.toNat + 1 := by
      rw [UInt32.toNat_add]
      exact Nat.mod_eq_of_lt (by simp; omega)
    unfold turns
    refine Emits.bind (records_turn hg) fun ended es hes => ?_
    cases ended with
    | next result' messages' =>
      obtain ⟨hfull, hg', hturns'⟩ := hes
      refine (records_turns (by omega) hg' hturns').mono fun r es' hes' => ?_
      rw [hsucc, Nat.add_assoc, Nat.add_comm 1] at hes'
      exact hes'.cons hfull
    | returned r =>
      obtain ⟨hends, hcount, hturns'⟩ := hes
      rw [← List.append_nil es] at hends hcount
      exact Emits.pure (.last hends hcount hsucc (by omega) hturns')
    | broken result' =>
      obtain ⟨hends, hcount, hb', hturns'⟩ := hes
      refine records_finish.mono fun r es' h => ?_
      rw [hb'] at h
      obtain ⟨rfl, rfl⟩ := h
      rw [← List.append_nil es] at hends hcount
      refine .last hends hcount hsucc (by omega) fun result hr => ?_
      cases hr
      exact hturns'

theorem records_run {M : Machine W U} {task : Str} {budget : Budget} :
    Records (run M task budget : RunM W U E _) fun r es =>
      ∃ started rest, es = started :: rest ∧ started.kind = .TurnStarted
        ∧ RunTrace budget 0 (max_turns budget).toNat r rest := by
  unfold run
  refine Emits.bind records_record ?_
  rintro _ _ ⟨started, rfl, hkind, -⟩
  refine Emits.bindQuiet records_take_snapshot fun _ => ?_
  have hgoing : Going budget {} := ⟨rfl, rfl, fun h => not_lt_of_ge h.2.2 h.2.1⟩
  refine Emits.mono (records_turns ?_ hgoing rfl) fun r es h => ⟨started, es, rfl, hkind, ?_⟩
  · simpa using (max_turns budget).toNat_lt
  · simpa using h

/-- The events of a run that returns, and how they agree with its result. -/
theorem run_trace {M : Machine W U} {task : Str} {budget : Budget} {s s' : Sys W U E}
    {r : Result RunResult} (h : (run M task budget).exec s = (.ok r, s')) :
    ∃ (started : Event) (turns : List (List Event)) (ending : List Event),
      s'.self.replay.events = s.self.replay.events ++ started :: (turns.flatten ++ ending)
      ∧ started.kind = .TurnStarted ∧ (∀ t ∈ turns, FullTurn t)
      ∧ Ends budget (kinds ending) r
      ∧ (kinds ending = [.ModelRequested, .Degraded] ↔ ∃ err, r = .error err)
      ∧ (kinds ending = [.ModelRequested, .ModelResponded, .TaskEnded]
          ∨ kinds ending
            = [.ModelRequested, .ModelResponded, .ToolCalled, .Degraded, .TaskEnded] ↔
        ∃ result, r = .ok result ∧ result.completed = true)
      ∧ ((∃ result, r = .ok result
          ∧ (kinds ending = [.ModelRequested, .ModelResponded, .BudgetHit]
              ∧ result.bounded_reason = lit "max_cost"
            ∨ kinds ending = [.BudgetHit] ∧ result.bounded_reason = lit "max_turns")) ↔
        ∃ result, r = .ok result ∧ result.bounded = true)
      ∧ ∀ result, r = .ok result →
        result.completed = !result.bounded
        ∧ result.turns.toNat = (kinds (turns.flatten ++ ending)).count .ModelRequested
        ∧ result.turns ≤ (if budget.active then budget.max_turns else 64)
        ∧ (kinds ending = [.ModelRequested, .ModelResponded, .BudgetHit] ↔
            budget.active = true ∧ 0 < budget.max_cost ∧ budget.max_cost ≤ result.cost) := by
  obtain ⟨_, hlog, started, _, rfl, hkind, turns, ending, rfl, hfull, hends, hturns⟩ :=
    records_run s r s' h
  refine ⟨started, turns, ending, hlog, hkind, hfull, hends, hends.failed_iff,
    hends.completed_iff, hends.bounded_iff, fun result hr => ?_⟩
  obtain ⟨hcount, hle⟩ := hturns result hr
  rw [hr] at hends
  exact ⟨hends.completed_eq, by simpa using hcount, UInt32.le_iff_toNat_le.2 hle,
    hends.max_cost_iff⟩

/-- A script that calls a tool which is not there and then answers. -/
def script : List Json :=
  [.ofFields
      [("plan", .string "look"),
        ("tool_calls", .array [.ofFields [("name", .string "find"), ("arguments", .string [])]])],
    .ofFields [("plan", .string "done")]]

def scriptMachine : Machine FlatFs Empty where
  text := .ofTable []
  platform := flatPlatform fun _ _ => []
  scheduler := .inOrder

def scriptStart : Sys FlatFs Empty FakeProvider where
  self := .ofProvider FakeProvider.provider {}
  world := fun _ => none
  env := { steps := script }

theorem script_returns : ((run scriptMachine "task" {}).exec scriptStart).1
    = .ok (.ok { completed := true, turns := 2, final_output := "done" }) := by decide +kernel

theorem run_trace_script :
    ∃ (started : Event) (turns : List (List Event)) (ending : List Event),
      ((run scriptMachine "task" {}).exec scriptStart).2.self.replay.events
        = started :: (turns.flatten ++ ending)
      ∧ (∀ t ∈ turns, FullTurn t)
      ∧ Ends {} (kinds ending)
        (.ok { completed := true, turns := 2, final_output := "done" }) := by
  have hrun : (run scriptMachine "task" {}).exec scriptStart
      = (.ok (.ok { completed := true, turns := 2, final_output := "done" }),
        ((run scriptMachine "task" {}).exec scriptStart).2) := by
    rw [← script_returns]
  obtain ⟨started, turns, ending, hevents, -, hfull, hends, -⟩ := run_trace hrun
  exact ⟨started, turns, ending, hevents, hfull, hends⟩

end Orchestrator

end Praxis
