import Praxis.Proofs.Control

/-!
# What the blocks of a run are made of

Everything a run does to its system is one of twelve kinds of actions. `runs_block` says of which
kinds the block of a point is made, so that whatever these keep the block keeps (`Runs.keeps`).
-/

namespace Praxis

namespace Orchestrator

open Effect (Prog Blocks Keeps Made)

variable {W U E α β : Type} {M : Machine W U} {task : Str} {budget : Budget}

inductive Action
  | record
  | snapshot
  | complete
  | cascade
  | tokens
  | telemetry
  | lookup
  | execute
  | ledger
  | cacheResult
  | store
  | invalidate
  deriving DecidableEq

/-- The programs that are one action. -/
inductive Does (M : Machine W U) : Action → ∀ {α : Type}, RunM W U E α → Prop
  | record (kind : EventKind) (payload : List (Str × Json)) : Does M .record (record kind payload)
  | take_snapshot : Does M .snapshot (take_snapshot M)
  | complete_for (role : Role) (messages : Messages) :
    Does M .complete (complete_for role messages)
  | cascade (f : ModelCascade → ModelCascade) :
    Does M .cascade (modifySelf fun self => { self with cascade := f self.cascade })
  | record_token {α : Type} (g : Sys W U E → α) (prompt completion : UInt32) :
    Does M .tokens (Prog.step fun s =>
      let self := s.self
      (g s,
        { s with
          self := { self with telemetry := self.telemetry.record_token prompt completion } }))
  | record_cache_hit (hit : Bool) :
    Does M .telemetry (modifySelf fun self =>
      { self with telemetry := self.telemetry.record_cache_hit hit })
  | record_tool_call (ok : Bool) :
    Does M .telemetry (modifySelf fun self =>
      { self with telemetry := self.telemetry.record_tool_call ok })
  | lookup {α : Type} (g : Sys W U E → α) (key : Str) (dependencies : List Str) :
    Does M .lookup (Prog.step fun s =>
      let self := s.self
      (g s, { s with self := { self with cache := (self.cache.get key dependencies).2 } }))
  | execute_pending (pending : List ToolCall) : Does M .execute (execute_pending M pending)
  | ledger {α : Type} (a : α) (records : List ToolExecutionRecord) :
    Does M .ledger (Prog.step fun s => (a, { s with ledger := s.ledger ++ records }))
  | cache_result (views : List CallView) (rec : ToolExecutionRecord) :
    Does M .cacheResult (modifySelf (cache_result views rec))
  | store_result (body : Str) : Does M .store (store_result M.text body)
  | invalidate (changed : List Str) :
    Does M .invalidate (modifySelf fun self =>
      { self with
        cache := changed.foldl (fun cache p => cache.invalidate_dependency ("file:" ++ p))
          self.cache })

/-- The program does nothing to the system but actions of the given kinds. -/
abbrev Runs (M : Machine W U) (S : List Action) (x : RunM W U E α) : Prop :=
  Made (fun β (y : RunM W U E β) => ∃ k ∈ S, Does M k y) x

variable {S : List Action}

theorem runs_action {k : Action} {x : RunM W U E α} (hk : k ∈ S) (h : Does M k x) : Runs M S x :=
  .action ⟨k, hk, h⟩

theorem runs_record (h : .record ∈ S) {kind : EventKind} {payload : List (Str × Json)} :
    Runs M S (record kind payload : RunM W U E Unit) := runs_action h (.record kind payload)

theorem runs_cascade (h : .cascade ∈ S) (f : ModelCascade → ModelCascade) :
    Runs M S (modifySelf fun self => { self with cascade := f self.cascade } : RunM W U E Unit) :=
  runs_action h (.cascade f)

theorem runs_complete_and_observe (hcomplete : .complete ∈ S) (hcascade : .cascade ∈ S)
    {role : Role} {messages : Messages} :
    Runs M S (complete_and_observe role messages : RunM W U E _) := by
  unfold complete_and_observe
  refine .bind (.look _) fun tier => .bind (runs_action hcomplete (.complete_for role messages))
    fun response => .bind ?_ fun _ => .pure _
  cases response with
  | error err => exact runs_cascade hcascade fun cascade => cascade.record_failure tier
  | ok resp =>
    exact runs_cascade hcascade fun cascade =>
      cascade.record_outcome tier (resp.outcome.plan.isEmpty && resp.outcome.has_tool_use)

theorem runs_account (h : .tokens ∈ S) {raw : Json} :
    Runs M S (account raw : RunM W U E _) := by
  unfold account
  split
  · exact .pure _
  · exact .bind (.ofExcept _) fun prompt => .bind (.ofExcept _) fun completion =>
      runs_action h (.record_token _ prompt completion)

theorem runs_lookup_call (h : [.lookup, .telemetry, .record] ⊆ S) {view : CallView} :
    Runs M S (lookup_call view : RunM W U E _) := by
  unfold lookup_call
  refine .bind (runs_action (h (by simp)) (.lookup _ _ _)) fun cached =>
    .bind (runs_action (h (by simp)) (.record_cache_hit _)) fun _ => ?_
  cases cached with
  | none => exact .pure _
  | some output => exact .bind (runs_record (h (by simp))) fun _ => .pure _

theorem runs_lookup_calls (h : [.lookup, .telemetry, .record] ⊆ S) :
    ∀ {calls : List (ToolCall × CallView)} {i : ℕ},
      Runs M S (lookup_calls i calls : RunM W U E _)
  | [], _ => .pure _
  | (call, view) :: calls, i => by
    unfold lookup_calls
    refine .bind (runs_lookup_call h) fun cached => .bind (runs_lookup_calls h) fun found => ?_
    cases cached <;> exact .pure _

theorem runs_run_calls (h : [.lookup, .telemetry, .record, .execute, .ledger] ⊆ S)
    {calls : List ToolCall} {views : List CallView} :
    Runs M S (run_calls M calls views : RunM W U E _) := by
  unfold run_calls
  refine .bind (runs_lookup_calls fun k hk => h ?_) fun found =>
    .bind (runs_action (h (by simp)) (.execute_pending found.1)) fun executed =>
      runs_action (h (by simp)) (.ledger _ _)
  revert k
  decide

theorem runs_record_result (h : [.record, .telemetry, .cascade, .cacheResult, .store] ⊆ S)
    {chosen_tier : Tier} {views : List CallView} {rec : ToolExecutionRecord} :
    Runs M S (record_result M chosen_tier views rec : RunM W U E _) := by
  unfold record_result
  refine .bind (runs_action (h (by simp)) (.record_tool_call _)) fun _ =>
    .bind (runs_record (h (by simp))) fun _ => .bind ?_ fun _ => ?_
  · cases rec.result.ok with
    | true => exact .look _
    | false => exact runs_cascade (h (by simp)) fun cascade => cascade.record_failure chosen_tier
  · exact .bind (runs_action (h (by simp)) (.cache_result views rec)) fun _ =>
      .bind (.ofExcept _) fun body =>
        .bind (runs_action (h (by simp)) (.store_result body)) fun _ => .pure _

theorem runs_record_results (h : [.record, .telemetry, .cascade, .cacheResult, .store] ⊆ S)
    {chosen_tier : Tier} {views : List CallView} :
    ∀ {records : List ToolExecutionRecord} {turn_ctx : TurnContext} {messages : Messages},
      Runs M S (record_results M chosen_tier views records turn_ctx messages : RunM W U E _)
  | [], _, _ => .pure _
  | _ :: _, _, _ => .bind (runs_record_result h) fun _ => runs_record_results h

theorem runs_apply_side_effects (h : [.record, .invalidate] ⊆ S) :
    Runs M S (apply_side_effects M : RunM W U E Unit) := by
  unfold apply_side_effects
  refine .bind (.read _) fun changed => ?_
  split_ifs
  · exact .pure _
  · exact .bind (runs_record (h (by simp))) fun _ =>
      runs_action (h (by simp)) (.invalidate changed)

theorem runs_finish (h : .record ∈ S) {result : RunResult} :
    Runs M S (finish result : RunM W U E _) := by
  unfold finish
  split_ifs
  · exact .pure _
  · exact .bind (runs_record h) fun _ => .pure _

/-- The kinds of actions that the block of a point is made of. -/
@[simp] def Point.actions : Point → List Action
  | start => [.record, .snapshot]
  | head _ | leaving _ => [.record]
  | asking _ | reviewing _ _ _ _ => [.complete, .cascade]
  | answered _ _ (.error _) => [.record]
  | answered _ _ (.ok _) => [.record, .tokens]
  | reviewed _ _ _ _ _ => [.record, .cascade]
  | calling _ _ _ => [.lookup, .telemetry, .record, .execute, .ledger]
  | called _ _ _ _ => [.record, .telemetry, .cascade, .cacheResult, .store]
  | observing _ => [.record, .invalidate]
  | ended _ => []

theorem runs_block : ∀ p : Point, Runs M p.actions (p.block M task budget : RunM W U E Point)
  | .start => .bind (runs_record (by simp)) fun _ =>
      .bind (runs_action (by simp) .take_snapshot) fun _ => .pure _
  | .head l => by
    unfold Point.block
    dsimp only
    split
    · exact .pure _
    · exact .bind (runs_record (by simp)) fun _ => .pure _
  | .asking _ | .reviewing _ _ _ _ =>
    .bind (runs_complete_and_observe (by simp) (by simp)) fun _ => .pure _
  | .answered _ _ (.error _) => .bind (runs_record (by simp)) fun _ => .pure _
  | .answered _ _ (.ok resp) => by
    refine .bind (runs_record (by simp)) fun _ => .bind (runs_account (by simp)) fun turn_cost => ?_
    dsimp only
    split
    · exact .bind (runs_record (by simp)) fun _ => .pure _
    · split_ifs
      · exact .bind (runs_record (by simp)) fun _ => .pure _
      · exact .bind (.ofExcept _) fun _ => .bind (runs_record (by simp)) fun _ => .pure _
  | .reviewed _ _ _ decision_tier (.error _) =>
    .bind (runs_cascade (by simp) fun cascade => cascade.record_failure decision_tier)
      fun _ => .pure _
  | .reviewed _ _ _ decision_tier (.ok resp) => by
    unfold Point.block
    dsimp only
    split
    · exact .pure _
    · refine .bind (runs_record (by simp)) fun _ => .bind ?_ fun _ => ?_
      · exact runs_cascade (by simp) fun cascade => cascade.record_outcome decision_tier true
      · split_ifs
        · exact .bind (runs_record (by simp)) fun _ => .pure _
        · exact .pure _
  | .calling _ _ _ => .bind (.look _) fun _ => .bind (runs_record (by simp)) fun _ =>
      .bind (.look _) fun _ => .bind (runs_run_calls (List.Subset.refl _)) fun _ => .pure _
  | .called _ _ _ _ => .bind (runs_record_results (List.Subset.refl _)) fun _ =>
      .bind (.look _) fun _ => .pure _
  | .observing _ => .bind (runs_apply_side_effects (List.Subset.refl _)) fun _ => .pure _
  | .leaving _ => .bind (runs_finish (by simp)) fun _ => .pure _
  | .ended _ => .pure _

/-- What every kind of action keeps that a program is made of, the program keeps. -/
theorem Runs.keeps {R : Sys W U E → Sys W U E → Prop} (hrefl : ∀ s, R s s)
    (htrans : ∀ s s' s'', R s s' → R s' s'' → R s s'') {x : RunM W U E α} (h : Runs M S x)
    (hdoes : ∀ k ∈ S, ∀ (β : Type) (y : RunM W U E β), Does M k y → Keeps R y) :
    Keeps R x :=
  Made.keeps hrefl htrans (fun β y ⟨k, hk, hy⟩ => hdoes k hk β y hy) h

/-- What an action of the kind may make of a system. -/
inductive Writes : Action → Sys W U E → Sys W U E → Prop
  | nothing (k : Action) (s : Sys W U E) : Writes k s s
  | record (s : Sys W U E) (event : Event) (env : E) : Writes .record s
      { s with
        self := { s.self with replay := s.self.replay.push event }
        env := env }
  | snapshot (s : Sys W U E) (side_effects : SideEffectObserver) : Writes .snapshot s
      { s with self := { s.self with side_effects := side_effects } }
  | complete (s : Sys W U E) (retrying : List (RetryingProvider E)) (env : E) :
    Writes .complete s { s with self := { s.self with retrying := retrying }, env := env }
  | cascade (s : Sys W U E) (cascade : ModelCascade) : Writes .cascade s
      { s with self := { s.self with cascade := cascade } }
  | tokens (s : Sys W U E) (prompt completion : UInt32) : Writes .tokens s
      { s with
        self := { s.self with
          telemetry := s.self.telemetry.record_token prompt completion } }
  | cacheHit (s : Sys W U E) (hit : Bool) : Writes .telemetry s
      { s with
        self := { s.self with telemetry := s.self.telemetry.record_cache_hit hit } }
  | toolCall (s : Sys W U E) (ok : Bool) : Writes .telemetry s
      { s with
        self := { s.self with telemetry := s.self.telemetry.record_tool_call ok } }
  | lookup (s : Sys W U E) (key : Str) (dependencies : List Str) : Writes .lookup s
      { s with
        self := { s.self with cache := (s.self.cache.get key dependencies).2 } }
  | execute (s : Sys W U E) (executor : ToolExecutor) (world : W) : Writes .execute s
      { s with
        self := { s.self with executor := executor }
        world := world }
  | ledger (s : Sys W U E) (records : List ToolExecutionRecord) : Writes .ledger s
      { s with ledger := s.ledger ++ records }
  | cacheResult (s : Sys W U E) (view : CallView) (output : Json)
      (h : s.self.options.cache_tools = true) : Writes .cacheResult s
      { s with
        self := { s.self with
          cache := s.self.cache.put (cache_key view) output view.dependencies
            s.self.options.cache_tools } }
  | store (s : Sys W U E) (context : ContextManager) : Writes .store s
      { s with self := { s.self with context := context } }
  | invalidate (s : Sys W U E) (changed : List Str) : Writes .invalidate s
      { s with
        self := { s.self with
          cache := changed.foldl (fun cache p => cache.invalidate_dependency ("file:" ++ p))
            s.self.cache } }

theorem Does.writes {k : Action} {x : RunM W U E α} (h : Does M k x) (s : Sys W U E) :
    Writes k s (x.exec s).2 := by
  cases h with
  | record kind payload => exact .record s _ _
  | take_snapshot =>
    unfold Orchestrator.take_snapshot
    rw [Prog.exec_of]
    dsimp only
    split_ifs
    · exact .nothing _ s
    · split
      · exact .nothing _ s
      · exact .snapshot s _
  | complete_for role messages =>
    unfold Orchestrator.complete_for
    rw [Prog.exec_of]
    dsimp only
    split
    · exact .nothing _ s
    · exact .complete s _ _
  | cascade f => exact .cascade s _
  | record_token g prompt completion => exact .tokens s prompt completion
  | record_cache_hit hit => exact .cacheHit s hit
  | record_tool_call ok => exact .toolCall s ok
  | lookup g key dependencies => exact .lookup s key dependencies
  | execute_pending pending =>
    unfold Orchestrator.execute_pending
    split_ifs
    · exact .nothing _ s
    · exact .execute s _ _
  | ledger a records => exact .ledger s records
  | cache_result views rec =>
    rw [exec_modifySelf]
    unfold Orchestrator.cache_result
    split_ifs with hok
    · rw [Bool.and_eq_true] at hok
      split
      · exact .cacheResult s _ _ hok.2
      · exact .nothing _ s
    · exact .nothing _ s
  | store_result body => exact .store s _
  | invalidate changed => exact .invalidate s changed

/-- What is kept by all that the actions of a program may write, the program keeps. -/
theorem Runs.keepsWrites {R : Sys W U E → Sys W U E → Prop} (hrefl : ∀ s, R s s)
    (htrans : ∀ s s' s'', R s s' → R s' s'' → R s s'') {x : RunM W U E α} (h : Runs M S x)
    (hwrites : ∀ k ∈ S, ∀ s s', Writes k s s' → R s s') : Keeps R x :=
  h.keeps hrefl htrans fun k hk _ _ hy s => hwrites k hk s _ (hy.writes s)

/-- What an invalidation never changes, those of changed files do not. -/
theorem invalidated_eq {V : Type} {f : Cache → V}
    (h : ∀ cache dep, f (cache.invalidate_dependency dep) = f cache) :
    ∀ (changed : List Str) (cache : Cache),
      f (changed.foldl (fun cache p => cache.invalidate_dependency ("file:" ++ p)) cache) = f cache
  | [], _ => rfl
  | _ :: changed, cache => (invalidated_eq h changed _).trans (h cache _)

/-- What is kept by all that an action may write, the loop keeps. -/
theorem keeps_turns {R : Sys W U E → Sys W U E → Prop} (hrefl : ∀ s, R s s)
    (htrans : ∀ s s' s'', R s s' → R s' s'' → R s s'')
    (hwrites : ∀ k s s', Writes k s s' → R s s') (remaining : ℕ) (i : UInt32) (result : RunResult)
    (messages : Messages) :
    Keeps R (turns M task budget remaining i result messages : RunM W U E _) := by
  have hend : Keeps R (toEnd M task budget (.head ⟨remaining, i, result, messages⟩)) :=
    Blocks.keeps_toEnd _ hrefl htrans
      (fun p => (runs_block p).keepsWrites hrefl htrans fun k _ => hwrites k) _
  rw [toEnd_head] at hend
  exact hend.of_map

/-- What the actions of a run keep, the run keeps. -/
theorem keeps_run {R : Sys W U E → Sys W U E → Prop} (hrefl : ∀ s, R s s)
    (htrans : ∀ s s' s'', R s s' → R s' s'' → R s s'')
    (hdoes : ∀ k (β : Type) (y : RunM W U E β), Does M k y → Keeps R y) :
    Keeps R (run M task budget : RunM W U E _) := by
  have hend : Keeps R (toEnd M task budget .start) :=
    Blocks.keeps_toEnd _ hrefl htrans
      (fun p => (runs_block p).keeps hrefl htrans fun k _ => hdoes k) _
  rw [toEnd_start] at hend
  exact hend.of_map

end Orchestrator

end Praxis
