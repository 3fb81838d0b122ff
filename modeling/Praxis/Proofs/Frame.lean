import Praxis.Proofs.Actions

/-!
# What the parts of a run leave alone

Of the options, the registry, the sinks, the providers, the cascade, the counted tokens and the
context, which are the core of a system, most blocks of a run change nothing; a completion changes
the cascade, `account` the tokens, and `record_results` the cascade and the context.
-/

namespace Praxis

namespace Orchestrator

open Effect (Prog Keeps)

variable {W U E α β : Type} {M : Machine W U} {task : Str} {budget : Budget}

structure Core (W U E : Type) where
  options : OrchestratorOptions
  registry : ToolRegistry W U
  tool_ctx : Option (Ctx U)
  sinks : List (EventSink E)
  inners : List (Option (Provider E))
  router : AList fun _ : Tier => ℕ
  cascade : ModelCascade
  prompt_tokens : UInt64
  completion_tokens : UInt64
  context : ContextManager

def core (s : Sys W U E) : Core W U E where
  options := s.self.options
  registry := s.self.registry
  tool_ctx := s.self.tool_ctx
  sinks := s.self.replay.sinks
  inners := s.self.retrying.map (·.inner)
  router := s.self.router
  cascade := s.self.cascade
  prompt_tokens := s.self.telemetry.prompt_tokens
  completion_tokens := s.self.telemetry.completion_tokens
  context := s.self.context

/-- The program leaves the core alone, whether it returns or throws. -/
abbrev Still (x : RunM W U E α) : Prop := Keeps (fun s s' => core s' = core s) x

theorem still_pure {a : α} : Still (pure a : RunM W U E α) :=
  Keeps.pure (fun s => (rfl : core s = core s)) a

theorem still_ofExcept {e : Except Exn α} : Still (Prog.ofExcept e : RunM W U E α) :=
  Keeps.ofExcept (fun s => (rfl : core s = core s)) e

theorem still_of {f : Sys W U E → Except Exn α × Sys W U E} (h : ∀ s, core (f s).2 = core s) :
    Still (Prog.of f) := h

theorem still_step {f : Sys W U E → α × Sys W U E} (h : ∀ s, core (f s).2 = core s) :
    Still (Prog.step f : RunM W U E α) := h

theorem still_modifySelf {f : Orchestrator W U E → Orchestrator W U E}
    (h : ∀ s : Sys W U E, core { s with self := f s.self } = core s) :
    Still (modifySelf f : RunM W U E Unit) := h

theorem still_record {kind : EventKind} {payload : List (Str × Json)} :
    Still (record kind payload : RunM W U E Unit) := still_of fun _ => rfl

theorem still_take_snapshot : Still (take_snapshot M : RunM W U E Unit) :=
  still_of fun s => by
    dsimp only
    split_ifs
    · rfl
    · split <;> rfl

section Complete

variable {α : Type} {f : RetryingProvider E → α}

/-- Trying a provider changes what it counts and how long it slept, and nothing else. -/
theorem completeLoop_keeps (hattempt : ∀ self, f (RetryingProvider.countAttempt self) = f self)
    (hbackOff : ∀ self backoff, f (RetryingProvider.backOff self backoff) = f self)
    {inner : Provider E} {context : Messages} :
    ∀ (attempts : ℕ) (backoff : ℤ) (last : Result ModelResponse) (self : RetryingProvider E)
      (env : E),
      f (RetryingProvider.completeLoop inner context attempts backoff last self env).2.1 = f self
  | 0, _, _, _, _ => rfl
  | attempts + 1, backoff, last, self, env => by
    unfold RetryingProvider.completeLoop
    split
    · exact hattempt self
    · exact hattempt self
    · split_ifs
      · exact hattempt self
      · exact (completeLoop_keeps hattempt hbackOff attempts _ _ _ _).trans
          ((hbackOff _ backoff).trans (hattempt self))

theorem complete_keeps (hattempt : ∀ self, f (RetryingProvider.countAttempt self) = f self)
    (hbackOff : ∀ self backoff, f (RetryingProvider.backOff self backoff) = f self)
    (self : RetryingProvider E) (context : Messages) (env : E) :
    f (self.complete context env).2.1 = f self := by
  unfold RetryingProvider.complete
  split
  · rfl
  · exact completeLoop_keeps hattempt hbackOff _ _ _ self env

/-- The providers are the same after a completion by one of them. -/
theorem map_set_complete (hattempt : ∀ self, f (RetryingProvider.countAttempt self) = f self)
    (hbackOff : ∀ self backoff, f (RetryingProvider.backOff self backoff) = f self)
    {self : Orchestrator W U E} {tier : Tier} {i : ℕ} {provider : RetryingProvider E}
    (h : self.for_tier tier = some (i, provider)) (context : Messages) (env : E) :
    (self.retrying.set i (provider.complete context env).2.1).map f = self.retrying.map f := by
  obtain ⟨hlt, rfl⟩ := List.getElem?_eq_some_iff.1 (getElem?_of_for_tier h)
  rw [List.map_set, complete_keeps hattempt hbackOff, ← List.map_set, List.set_getElem_self]

end Complete

theorem still_complete_for {role : Role} {messages : Messages} :
    Still (complete_for role messages : RunM W U E _) :=
  still_of fun s => by
    dsimp only
    split
    · rfl
    · next i provider hfind =>
      have hinners : (s.self.retrying.set i (provider.complete messages s.env).2.1).map (·.inner)
          = s.self.retrying.map (·.inner) :=
        map_set_complete (fun _ => rfl) (fun _ _ => rfl) hfind messages s.env
      simp only [core, hinners]

theorem still_cache_result {views : List CallView} {rec : ToolExecutionRecord} :
    Still (modifySelf (cache_result views rec) : RunM W U E Unit) :=
  still_modifySelf fun s => by
    unfold cache_result
    split_ifs
    · split <;> rfl
    · rfl

theorem still_execute_pending {pending : List ToolCall} :
    Still (execute_pending M pending : RunM W U E _) := by
  unfold execute_pending
  split_ifs
  · exact still_pure
  · exact still_of fun _ => rfl

/-- The kinds of actions that leave the core alone. -/
def Action.still : Action → Bool
  | cascade | tokens | store => false
  | _ => true

theorem still_does {k : Action} (hk : k.still = true) {x : RunM W U E α} (h : Does M k x) :
    Still x := by
  cases h with
  | record => exact still_record
  | take_snapshot => exact still_take_snapshot
  | complete_for => exact still_complete_for
  | record_cache_hit hit => exact still_modifySelf fun s => by cases hit <;> rfl
  | record_tool_call ok => exact still_modifySelf fun s => by cases ok <;> rfl
  | lookup => exact still_step fun _ => rfl
  | execute_pending => exact still_execute_pending
  | ledger => exact still_step fun _ => rfl
  | cache_result => exact still_cache_result
  | invalidate => exact still_modifySelf fun _ => rfl
  | cascade | record_token | store_result => cases hk

theorem Runs.still {S : List Action} {x : RunM W U E α} (h : Runs M S x)
    (hS : ∀ k ∈ S, k.still = true) : Still x :=
  h.keeps (R := fun s s' => core s' = core s) (fun _ => rfl) (fun _ _ _ h h' => h'.trans h)
    fun k hk _ _ hy => still_does (hS k hk) hy

theorem still_apply_side_effects : Still (apply_side_effects M : RunM W U E Unit) :=
  (runs_apply_side_effects (List.Subset.refl _)).still (by decide)

/-! ## What else is kept -/

section Steady

variable {V : Type} {f : Core W U E → V}

/-- The program keeps what `f` shows of the core. -/
abbrev Steady (f : Core W U E → V) (x : RunM W U E α) : Prop :=
  Keeps (fun s s' => f (core s') = f (core s)) x

theorem Still.steady {x : RunM W U E α} (h : Still x) : Steady f x := fun s => congrArg f (h s)

theorem steady_bind {x : RunM W U E α} {g : α → RunM W U E β} (hx : Steady f x)
    (hg : ∀ a, Steady f (g a)) : Steady f (x >>= g) :=
  Keeps.bind (fun _ _ _ h h' => h'.trans h) hx hg

theorem Steady.exec {x : RunM W U E α} (hx : Steady f x) {s s' : Sys W U E} {r : Except Exn α}
    (h : x.exec s = (r, s')) : f (core s') = f (core s) := by
  have hkept := hx s
  rwa [h] at hkept

/-- Either the first part throws, or the second goes on from a state that shows the same. -/
theorem Steady.exec_bind {x : RunM W U E α} {g : α → RunM W U E β} (hx : Steady f x)
    {s s' : Sys W U E} {r : Except Exn β} (h : (x >>= g).exec s = (r, s')) :
    (∃ e, r = .error e ∧ f (core s') = f (core s))
      ∨ ∃ a s₁, f (core s₁) = f (core s) ∧ (g a).exec s₁ = (r, s') := by
  have hkept := hx s
  rw [Prog.exec_bind] at h
  rcases hexec : x.exec s with ⟨e | a, s₁⟩
  · rw [hexec] at h hkept
    cases h
    exact .inl ⟨e, rfl, hkept⟩
  · rw [hexec] at h hkept
    exact .inr ⟨a, s₁, hkept, h⟩

/-- The program keeps what all of its actions that change the core keep. -/
theorem Runs.steady {S : List Action} {x : RunM W U E α} (h : Runs M S x)
    (hcascade : .cascade ∈ S → ∀ c k, f { c with cascade := k } = f c)
    (htokens : .tokens ∈ S →
      ∀ c p q, f { c with prompt_tokens := p, completion_tokens := q } = f c)
    (hcontext : .store ∈ S → ∀ c k, f { c with context := k } = f c) : Steady f x := by
  refine h.keeps (R := fun s s' => f (core s') = f (core s)) (fun _ => rfl)
    (fun _ _ _ h h' => h'.trans h) fun k hk β y hy => ?_
  by_cases hstill : k.still = true
  · exact Still.steady (still_does hstill hy)
  · cases hy with
    | cascade g => exact fun s => hcascade hk (core s) _
    | record_token => exact fun s => htokens hk (core s) _ _
    | store_result => exact fun s => hcontext hk (core s) _
    | _ => exact (hstill rfl).elim

theorem steady_account
    (htokens : ∀ c p q, f { c with prompt_tokens := p, completion_tokens := q } = f c)
    {raw : Json} : Steady f (account raw : RunM W U E _) := by
  unfold account
  split
  · exact Still.steady still_pure
  · refine steady_bind (Still.steady still_ofExcept) fun prompt => ?_
    exact steady_bind (Still.steady still_ofExcept) fun completion => fun s =>
      htokens (core s) _ _

theorem steady_record_result (hcascade : ∀ c k, f { c with cascade := k } = f c)
    (hcontext : ∀ c k, f { c with context := k } = f c) {chosen_tier : Tier}
    {views : List CallView} {rec : ToolExecutionRecord} :
    Steady f (record_result M chosen_tier views rec : RunM W U E _) :=
  (runs_record_result (List.Subset.refl _)).steady (fun _ => hcascade) (by simp) fun _ => hcontext

theorem steady_record_results (hcascade : ∀ c k, f { c with cascade := k } = f c)
    (hcontext : ∀ c k, f { c with context := k } = f c) {chosen_tier : Tier}
    {views : List CallView} {records : List ToolExecutionRecord} {turn_ctx : TurnContext}
    {messages : Messages} :
    Steady f (record_results M chosen_tier views records turn_ctx messages : RunM W U E _) :=
  (runs_record_results (List.Subset.refl _)).steady (fun _ => hcascade) (by simp)
    fun _ => hcontext

end Steady

/-! ## Blocks -/

theorem block_confirmed {l : Loop} {chosen_tier decision_tier : Tier} {calls : List ToolCall}
    {resp : ModelResponse} (h : overridePlan resp.outcome.plan = none) :
    ((Point.reviewed l chosen_tier calls decision_tier (.ok resp)).block M task budget :
      RunM W U E Point) = pure (.calling l chosen_tier calls) := by
  unfold Point.block
  dsimp only
  rw [h]

/-- The points whose blocks leave the core alone. -/
def Point.still : Point → Bool
  | start | head _ | answered _ _ (.error _) | calling _ _ _ | observing _ | leaving _ | ended _ =>
    true
  | _ => false

theorem still_block {p : Point} (hp : p.still = true) :
    Still (p.block M task budget : RunM W U E Point) := by
  refine (runs_block p).still ?_
  cases p with
  | answered l chosen_tier response =>
    cases response with
    | error err => simp [Action.still]
    | ok resp => cases hp
  | asking | reviewing | reviewed | called => cases hp
  | _ => simp [Action.still]

/-- The cascade after a completion has been counted. -/
def observed (tier : Tier) (response : Result ModelResponse) (cascade : ModelCascade) :
    ModelCascade :=
  match response with
  | .error _ => cascade.record_failure tier
  | .ok resp =>
    cascade.record_outcome tier (resp.outcome.plan.isEmpty && resp.outcome.has_tool_use)

/-- A completion is counted for the tier that was asked, unless the provider throws. -/
theorem core_complete_and_observe {role : Role} {messages : Messages} {s s' : Sys W U E}
    {r : Except Exn (Tier × Result ModelResponse)}
    (h : (complete_and_observe role messages).exec s = (r, s')) :
    (∃ e, r = .error e ∧ core s' = core s)
      ∨ ∃ response, r = .ok (s.self.cascade.route_for role, response)
        ∧ core s' = { core s with
            cascade := observed (s.self.cascade.route_for role) response s.self.cascade } := by
  have hcomplete : Still (complete_for role messages : RunM W U E _) := still_complete_for
  have hstill := hcomplete s
  unfold complete_and_observe at h
  rw [Prog.exec_bind, Prog.exec_step] at h
  dsimp only at h
  rw [Prog.exec_bind] at h
  rcases hx : (complete_for role messages).exec s with ⟨e | response, s₁⟩
  · rw [hx] at h hstill
    cases h
    exact .inl ⟨e, rfl, hstill⟩
  · rw [hx] at h hstill
    cases h
    refine .inr ⟨response, rfl, ?_⟩
    have hcascade : s₁.self.cascade = s.self.cascade := congrArg Core.cascade hstill
    rw [← hstill, ← hcascade]
    rfl

/-- So it is for a block that asks and does nothing else. -/
theorem core_asked {role : Role} {messages : Messages}
    {answer : Tier → Result ModelResponse → Point} {s s' : Sys W U E} {r : Except Exn Point}
    (h : (complete_and_observe role messages >>= fun a => pure (answer a.1 a.2)).exec s
      = (r, s')) :
    (∃ e, r = .error e ∧ core s' = core s)
      ∨ ∃ response, r = .ok (answer (s.self.cascade.route_for role) response)
        ∧ core s' = { core s with
            cascade := observed (s.self.cascade.route_for role) response s.self.cascade } := by
  rw [Prog.exec_bind] at h
  rcases hasked : (complete_and_observe role messages).exec s with ⟨x, s₁⟩
  rw [hasked] at h
  rcases core_complete_and_observe hasked with ⟨e, rfl, hcore⟩ | ⟨response, rfl, hcore⟩
  · cases h
    exact .inl ⟨e, rfl, hcore⟩
  · cases h
    exact .inr ⟨response, rfl, hcore⟩

section Steady

variable {V : Type} {f : Core W U E → V}

theorem steady_answered
    (htokens : ∀ c p q, f { c with prompt_tokens := p, completion_tokens := q } = f c) (l : Loop)
    (chosen_tier : Tier) (response : Result ModelResponse) :
    Steady f ((Point.answered l chosen_tier response).block M task budget : RunM W U E Point) := by
  cases response <;> exact (runs_block _).steady (by simp) (fun _ => htokens) (by simp)

theorem steady_reviewed (hcascade : ∀ c k, f { c with cascade := k } = f c) (l : Loop)
    (chosen_tier : Tier) (calls : List ToolCall) (decision_tier : Tier)
    (response : Result ModelResponse) :
    Steady f ((Point.reviewed l chosen_tier calls decision_tier response).block M task budget :
      RunM W U E Point) :=
  (runs_block _).steady (fun _ => hcascade) (by simp) (by simp)

def Point.charges : Point → Bool
  | answered _ _ (.ok _) => true
  | _ => false

/-- What is not of the cascade or the context is kept by the other blocks. -/
theorem steady_uncharged (hcascade : ∀ c k, f { c with cascade := k } = f c)
    (hcontext : ∀ c k, f { c with context := k } = f c) {p : Point} (hp : p.charges = false) :
    Steady f (p.block M task budget : RunM W U E Point) := by
  refine (runs_block p).steady (fun _ => hcascade) (fun htokens => ?_) fun _ => hcontext
  cases p with
  | answered l chosen_tier response =>
    cases response with
    | error err => simp at htokens
    | ok resp => cases hp
  | _ => simp at htokens

/-- What is not of the cascade, the tokens or the context is kept by every block. -/
theorem steady_block (hcascade : ∀ c k, f { c with cascade := k } = f c)
    (htokens : ∀ c p q, f { c with prompt_tokens := p, completion_tokens := q } = f c)
    (hcontext : ∀ c k, f { c with context := k } = f c) (p : Point) :
    Steady f (p.block M task budget : RunM W U E Point) :=
  (runs_block p).steady (fun _ => hcascade) (fun _ => htokens) fun _ => hcontext

end Steady

end Orchestrator

end Praxis
