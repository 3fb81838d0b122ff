import Praxis.Proofs.Frame

/-!
# What the cascade counts

Every completion is counted once as it comes in. A decision that fails or overrides is counted again
when `run` deals with it; in a session without one the statistics are the numbers of completions
(`counts_session`).
-/

namespace Praxis

namespace TierState

/-- The statistics after so many more attempts, divergences and failures. -/
def grow (st : TierState) (attempts divergences failures : ℕ) : TierState where
  attempts := st.attempts + .ofNat attempts
  divergences := st.divergences + .ofNat divergences
  failures := st.failures + .ofNat failures

@[simp] theorem grow_zero (st : TierState) : st.grow 0 0 0 = st := by
  simp [grow]

@[simp] theorem grow_grow (st : TierState) (a b c a' b' c' : ℕ) :
    (st.grow a b c).grow a' b' c' = st.grow (a + a') (b + b') (c + c') := by
  simp only [grow, UInt64.ofNat_add, UInt32.ofNat_add, UInt64.add_assoc, UInt32.add_assoc]

end TierState

namespace ModelCascade

theorem state_record_outcome (cascade : ModelCascade) (t tier : Tier) (diverged : Bool) :
    (cascade.record_outcome t diverged).state tier =
      if t = tier then (cascade.state tier).grow 1 (if diverged then 1 else 0) 0
      else cascade.state tier := by
  by_cases h : t = tier
  · subst h
    rw [if_pos rfl]
    unfold record_outcome
    rw [state, AList.lookup_insert]
    cases diverged <;> simp [TierState.grow]
  · rw [if_neg h, record_outcome, state, AList.lookup_insert_ne (Ne.symm h), state]

theorem state_record_failure (cascade : ModelCascade) (t tier : Tier) :
    (cascade.record_failure t).state tier =
      if t = tier then (cascade.state tier).grow 0 0 1 else cascade.state tier := by
  by_cases h : t = tier
  · subst h
    rw [if_pos rfl]
    unfold record_failure
    rw [state, AList.lookup_insert]
    simp [TierState.grow]
  · rw [if_neg h, record_failure, state, AList.lookup_insert_ne (Ne.symm h), state]

end ModelCascade

namespace Orchestrator

open Effect (Prog Blocks)

variable {W U E : Type} {M : Machine W U} {task : Str} {budget : Budget}

/-! ## What is counted -/

namespace Completion

def succeeded (c : Completion) : Bool := c.response.isOk

/-- A decision that overrides the plan. -/
def overrides (c : Completion) : Bool :=
  match c.response with
  | .error _ => false
  | .ok resp => c.role == .Decision && (overridePlan resp.outcome.plan).isSome

/-- The plan is empty although tools are to be used, or overrides another. -/
def divergent (c : Completion) : Bool :=
  match c.response with
  | .error _ => false
  | .ok resp => (resp.outcome.plan.isEmpty && resp.outcome.has_tool_use) || c.overrides

/-- A decision that fails or overrides. -/
def recounted (c : Completion) : Bool := (c.role == .Decision && !c.succeeded) || c.overrides

end Completion

/-- The number of failed tool records that a move goes over for the tier. An exception stops it
after some of them. -/
def ToolFailures (tier : Tier) (m : Config W U E × Config W U E) (n : ℕ) : Prop :=
  match m.1.1 with
  | .ok (.called _ chosen_tier _ records) =>
    ∃ seen, seen <+: records ∧ (m.2.1.isOk → seen = records)
      ∧ n = if chosen_tier = tier then seen.countP fun r => !r.result.ok else 0
  | _ => n = 0

/-- Between the states the statistics of the tier have grown by what the moves have obtained. -/
def Counted (tier : Tier) (ms : List (Config W U E × Config W U E)) (s s' : Sys W U E) : Prop :=
  ∃ failed, List.Forall₂ (ToolFailures tier) ms failed
    ∧ s'.self.cascade.state tier = (s.self.cascade.state tier).grow
        ((completions ms).countP fun c => c.tier == tier && c.succeeded)
        ((completions ms).countP fun c => c.tier == tier && c.divergent)
        (((completions ms).countP fun c => c.tier == tier && !c.succeeded) + failed.sum)

theorem Counted.attempts {tier : Tier} {ms : List (Config W U E × Config W U E)}
    {s s' : Sys W U E} (h : Counted tier ms s s') :
    (s'.self.cascade.state tier).attempts = (s.self.cascade.state tier).attempts
      + .ofNat ((completions ms).countP fun c => c.tier == tier && c.succeeded) := by
  obtain ⟨failed, -, hstate⟩ := h
  rw [hstate, TierState.grow]

/-! ## What a move counts -/

theorem state_observed {role : Role} {t tier : Tier} {response : Result ModelResponse}
    {cascade : ModelCascade} (h : (Completion.mk role t response).overrides = false) :
    (observed t response cascade).state tier = (cascade.state tier).grow
      ([Completion.mk role t response].countP fun c => c.tier == tier && c.succeeded)
      ([Completion.mk role t response].countP fun c => c.tier == tier && c.divergent)
      ([Completion.mk role t response].countP fun c => c.tier == tier && !c.succeeded) := by
  cases response with
  | error err =>
    rw [observed, ModelCascade.state_record_failure]
    by_cases htier : t = tier <;>
      simp [htier, Completion.succeeded, Completion.divergent, Except.isOk, Except.toBool]
  | ok resp =>
    rw [observed, ModelCascade.state_record_outcome]
    by_cases htier : t = tier
    · subst htier
      simp [Completion.succeeded, Completion.divergent, Except.isOk, Except.toBool,
        List.countP_cons, h]
    · simp [htier]

/-- A failed record is counted for the tier of the chore, unless a sink has thrown before. -/
theorem state_record_result {chosen_tier : Tier} (tier : Tier) {views : List CallView}
    {rec : ToolExecutionRecord} {s s' : Sys W U E} {r : Except Exn (Str × Message)}
    (h : (record_result M chosen_tier views rec).exec s = (r, s')) :
    ((∃ e, r = .error e) ∧ s'.self.cascade.state tier = s.self.cascade.state tier)
      ∨ s'.self.cascade.state tier = (s.self.cascade.state tier).grow 0 0
          (if chosen_tier = tier then [rec].countP fun r => !r.result.ok else 0) := by
  let f : Core W U E → TierState := fun c => c.cascade.state tier
  unfold record_result at h
  have htelemetry : Steady f (modifySelf fun self : Orchestrator W U E =>
      { self with telemetry := self.telemetry.record_tool_call rec.result.ok }) := by
    refine Still.steady (still_modifySelf fun s => ?_)
    cases rec.result.ok <;> rfl
  rcases htelemetry.exec_bind h with ⟨e, he, hstate⟩ | ⟨_, s₁, hstate₁, h₁⟩
  · exact .inl ⟨⟨e, he⟩, hstate⟩
  rcases (Still.steady (f := f) still_record).exec_bind h₁ with
    ⟨e, he, hstate⟩ | ⟨_, s₂, hstate₂, h₂⟩
  · exact .inl ⟨⟨e, he⟩, hstate.trans hstate₁⟩
  have hcount : s₂.self.cascade.state tier = s.self.cascade.state tier := hstate₂.trans hstate₁
  rw [Prog.exec_bind, exec_modifySelf] at h₂
  have hrest : Steady f (modifySelf (cache_result views rec) >>= fun _ =>
      (Prog.ofExcept (resultBody M.text rec) >>= fun body => store_result M.text body >>= fun id =>
        pure (id, toolMessage rec body)) : RunM W U E (Str × Message)) :=
    steady_bind (Still.steady still_cache_result) fun _ =>
      steady_bind (Still.steady still_ofExcept) fun body =>
        steady_bind (fun _ => rfl) fun id => Still.steady still_pure
  refine .inr ((hrest.exec h₂).trans ?_)
  show (if rec.result.ok then s₂.self
    else record_failure chosen_tier s₂.self).cascade.state tier = _
  by_cases hok : rec.result.ok
  · rw [if_pos hok]
    simpa [hok] using hcount
  · rw [if_neg hok, record_failure, ModelCascade.state_record_failure, hcount]
    by_cases htier : chosen_tier = tier <;> simp [htier, hok]

/-- The failed records that have been gone over are counted for the tier of the chore. -/
theorem state_record_results {chosen_tier : Tier} (tier : Tier) {views : List CallView} :
    ∀ {records : List ToolExecutionRecord} {turn_ctx : TurnContext} {messages : Messages}
      {s s' : Sys W U E} {r : Except Exn (TurnContext × Messages)},
      (record_results M chosen_tier views records turn_ctx messages).exec s = (r, s') →
      ∃ seen, seen <+: records ∧ (r.isOk → seen = records)
        ∧ s'.self.cascade.state tier = (s.self.cascade.state tier).grow 0 0
            (if chosen_tier = tier then seen.countP fun r => !r.result.ok else 0)
  | [], _, _, s, s', r, h => by
    cases h
    exact ⟨[], List.nil_prefix, fun _ => rfl, by simp⟩
  | rec :: records, _, _, s, s', r, h => by
    unfold record_results at h
    rw [Prog.exec_bind] at h
    rcases hrec : (record_result M chosen_tier views rec).exec s with ⟨e | a, s₁⟩
    · rw [hrec] at h
      cases h
      rcases state_record_result tier hrec with ⟨-, hstate⟩ | hstate
      · exact ⟨[], List.nil_prefix, fun h => (nomatch h), by simpa using hstate⟩
      · exact ⟨[rec], ⟨records, rfl⟩, fun h => (nomatch h), hstate⟩
    · rw [hrec] at h
      rcases state_record_result tier hrec with ⟨⟨e, he⟩, -⟩ | hstate
      · cases he
      · obtain ⟨seen, hseen, hall, hrest⟩ := state_record_results tier h
        refine ⟨rec :: seen, List.cons_prefix_cons.2 ⟨rfl, hseen⟩, fun h => by rw [hall h], ?_⟩
        rw [hrest, hstate, TierState.grow_grow]
        split_ifs
        · rw [← List.countP_append, List.singleton_append]
        · rfl

/-- The points that do not ask a provider. -/
def Point.silent : Point → Bool
  | asking _ | reviewing _ _ _ _ => false
  | _ => true

theorem Point.Next.obtained {p q : Point} (h : Point.Next M task budget p q)
    (hsilent : p.silent = true) : q.obtained = none := by
  cases h with
  | answer | review => cases hsilent
  | _ => rfl

theorem completionOf_silent {p : Point} {s : Sys W U E} {d : Config W U E}
    (hsilent : p.silent = true) (h : (control M task budget).advance (.ok p, s) = some d) :
    completionOf ((.ok p, s), d) = none := by
  rcases d with ⟨e | q, s'⟩
  · rfl
  · exact (next_of_advance h).obtained hsilent

/-- What a move that does not ask a provider counts. -/
theorem counted_silent {p : Point} {s : Sys W U E} {d : Config W U E} {tier : Tier} {n : ℕ}
    (hsilent : p.silent = true) (h : (control M task budget).advance (.ok p, s) = some d)
    (hfailed : ToolFailures tier ((.ok p, s), d) n)
    (hstate : d.2.self.cascade.state tier = (s.self.cascade.state tier).grow 0 0 n) :
    Counted tier [((.ok p, s), d)] s d.2 := by
  refine ⟨[n], .cons hfailed .nil, ?_⟩
  simp only [completions, List.filterMap_cons, completionOf_silent hsilent h, List.filterMap_nil]
  simpa using hstate

/-- What a completion counts, if it does not override. -/
theorem counted_asking {p : Point} {s s' : Sys W U E} {role : Role} {messages : Messages}
    {answer : Tier → Result ModelResponse → Point} {r : Except Exn Point} {tier : Tier}
    (hfailed : ToolFailures tier ((.ok p, s), (r, s')) 0)
    (hobtained : ∀ t response, (answer t response).obtained = some ⟨role, t, response⟩)
    (h : (complete_and_observe role messages >>= fun a => pure (answer a.1 a.2)).exec s = (r, s'))
    (hsettled : ∀ c ∈ completionOf ((.ok p, s), (r, s')), c.overrides = false) :
    Counted tier [((.ok p, s), (r, s'))] s s' := by
  refine ⟨[0], .cons hfailed .nil, ?_⟩
  rcases core_asked h with ⟨e, rfl, hcore⟩ | ⟨response, rfl, hcore⟩
  · have hcascade : s'.self.cascade = s.self.cascade := congrArg Core.cascade hcore
    simp [completions, completionOf, List.filterMap_cons, hcascade]
  · have hcascade := congrArg Core.cascade hcore
    simp only [completions, List.filterMap_cons, completionOf, hobtained, List.filterMap_nil]
      at hsettled ⊢
    refine (congrArg (fun k => k.state tier) hcascade).trans ?_
    exact state_observed (hsettled _ rfl)

/-- A move whose completions are not counted again counts what it obtains. -/
theorem counted_move {p : Point} {s : Sys W U E} {d : Config W U E} {tier : Tier}
    (h : (control M task budget).advance (.ok p, s) = some d)
    (hp : ∀ c ∈ p.obtained, c.recounted = false)
    (hd : ∀ c ∈ completionOf ((.ok p, s), d), c.recounted = false) :
    Counted tier [((.ok p, s), d)] s d.2 := by
  have hexec := (exec_of_advance h).2
  have hoverrides : ∀ c : Completion, c.recounted = false → c.overrides = false := fun c hc => by
    rw [Completion.recounted, Bool.or_eq_false_iff] at hc
    exact hc.2
  have hkept : ∀ {f : Core W U E → TierState}, (∀ c, f c = c.cascade.state tier) →
      Steady f (p.block M task budget) →
      d.2.self.cascade.state tier = (s.self.cascade.state tier).grow 0 0 0 := fun hf hsteady => by
    have hstate := hsteady.exec hexec
    rw [hf, hf] at hstate
    rw [TierState.grow_zero]
    exact hstate
  cases p with
  | asking l =>
    exact counted_asking rfl (fun _ _ => rfl) hexec fun c hc => hoverrides c (hd c hc)
  | reviewing l chosen_tier plan calls =>
    exact counted_asking rfl (fun _ _ => rfl) hexec fun c hc => hoverrides c (hd c hc)
  | answered l chosen_tier response =>
    exact counted_silent rfl h rfl
      (hkept (fun _ => rfl) (steady_answered (fun _ _ _ => rfl) l chosen_tier response))
  | reviewed l chosen_tier calls decision_tier response =>
    have hsettled := hp _ rfl
    cases response with
    | error err => cases hsettled
    | ok resp =>
      have hnone : overridePlan resp.outcome.plan = none := by
        have hc := hoverrides _ hsettled
        simpa [Completion.overrides] using hc
      refine counted_silent rfl h rfl (hkept (f := fun c => c.cascade.state tier) (fun _ => rfl) ?_)
      rw [block_confirmed hnone]
      exact Still.steady still_pure
  | called l chosen_tier views records =>
    unfold Point.block at hexec
    dsimp only at hexec
    rw [Prog.exec_bind] at hexec
    rcases hresults : (record_results M chosen_tier views records { goal := task }
      l.messages).exec s with ⟨e | a, s₁⟩
    all_goals
      rw [hresults] at hexec
      cases hexec
      obtain ⟨seen, hseen, hall, hstate⟩ := state_record_results tier hresults
    · exact counted_silent rfl h ⟨seen, hseen, fun h => (nomatch h), rfl⟩ hstate
    · exact counted_silent rfl h ⟨seen, hseen, fun _ => hall rfl, rfl⟩ hstate
  | start | head | calling | observing | leaving | ended =>
    exact counted_silent rfl h rfl
      (hkept (f := fun c => c.cascade.state tier) (fun _ => rfl) (Still.steady (still_block rfl)))

theorem Counted.append {tier : Tier} {ms ms' : List (Config W U E × Config W U E)}
    {s s' s'' : Sys W U E} (h : Counted tier ms s s') (h' : Counted tier ms' s' s'') :
    Counted tier (ms ++ ms') s s'' := by
  obtain ⟨failed, hfailed, hstate⟩ := h
  obtain ⟨failed', hfailed', hstate'⟩ := h'
  refine ⟨failed ++ failed', List.rel_append hfailed hfailed', ?_⟩
  rw [hstate', hstate, TierState.grow_grow]
  simp only [completions, List.filterMap_append, List.countP_append, List.sum_append]
  congr 1
  omega

/-- If no decision fails or overrides, each completion that the runs of a session obtain is counted
once, and so is each failed tool record. -/
theorem counts_session (M : Machine W U) (runs : List (Str × Budget)) (s : Sys W U E)
    {ms : List (Config W U E × Config W U E)} (hms : ms <+: sessionMoves M runs s)
    (h : ∀ c ∈ completions ms, c.recounted = false) (tier : Tier) :
    Counted tier ms s (Blocks.stop (.ok .start, s) ms).2 := by
  refine (along_session (Q := fun ms d => (∀ p, d.1 = .ok p → ∀ c ∈ p.obtained, c ∈ completions ms)
    ∧ ((∀ c ∈ completions ms, c.recounted = false) → Counted tier ms s d.2)) ?_ ?_ ?_ hms).2 h
  · refine ⟨fun p hp c hc => ?_, fun _ => ⟨[], .nil, by simp [completions]⟩⟩
    cases hp
    cases hc
  · refine fun ms d hQ => ⟨fun p hp c hc => ?_, hQ.2⟩
    cases hp
    cases hc
  · intro task budget ms d d' hQ hadvance
    obtain ⟨hobtained, hcounted⟩ := hQ
    rw [completions_snoc]
    refine ⟨fun p hp c hc => ?_, fun h => ?_⟩
    · have : completionOf (d, d') = some c := by
        simp only [completionOf, hp]
        exact hc
      simp [this]
    · obtain ⟨_ | p, s'⟩ := d
      · cases hadvance
      · refine (hcounted fun c hc => h c (List.mem_append_left _ hc)).append ?_
        refine counted_move hadvance (fun c hc => ?_) fun c hc => ?_
        · exact h c (List.mem_append_left _ (hobtained p rfl c hc))
        · exact h c (List.mem_append_right _ (Option.mem_toList.2 hc))

theorem counts_proposal :
    let s := scriptedStart {} [proposal "list" "", answer "CONFIRM", answer "done"]
    let ms := sessionMoves (scriptedMachine (.ofTable [])) [("task", {})] s
    Counted .Small ms s (Blocks.stop (.ok .start, s) ms).2 :=
  counts_session (scriptedMachine (.ofTable [])) [("task", {})] _ (List.prefix_refl _)
    (by decide +kernel) .Small

/-- One decision of the large tier that overrides makes two attempts. -/
theorem override_counted_twice :
    let s := scriptedStart {} [proposal "list" "", answer "OVERRIDE: halt", answer "done"]
    let ms := sessionMoves (scriptedMachine (.ofTable [])) [("task", {})] s
    ¬ Counted .Large ms s (Blocks.stop (.ok .start, s) ms).2 := by
  exact fun h => absurd h.attempts (by decide +kernel)

end Orchestrator

end Praxis
