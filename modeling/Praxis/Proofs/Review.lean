import Praxis.Proofs.Frame

/-!
# What a decision does to a run

A decision reviews the calls that the last chore response proposes (`proposed`). The prompt tells
the model that an empty plan halts tool use, but `run` takes it for a confirmation, so a veto spares
the calls exactly if its plan is not empty (`veto_spares_iff`). An override drops the calls and is
then forgotten: the next chore request is made of the messages and the context of before
(`nextRequest_override`).
-/

namespace Praxis

namespace Orchestrator

open Effect (Prog Blocks Keeps)

variable {W U E : Type} {M : Machine W U} {task : Str} {budget : Budget}

/-- What is at hand when a decision has come in. -/
structure Reviewed where
  l : Loop
  chosen_tier : Tier
  calls : List ToolCall
  decision_tier : Tier
  resp : ModelResponse

def Reviewed.point (r : Reviewed) : Point :=
  .reviewed r.l r.chosen_tier r.calls r.decision_tier (.ok r.resp)

def lastChore (cs : List Completion) : Option Completion :=
  (cs.filter fun c => c.role == .Chore).getLast?

/-- The calls under review are those of the last chore response. -/
def Proposed (M : Machine W U) (cs : List Completion) : Point → Prop
  | .answered _ chosen_tier response => lastChore cs = some ⟨.Chore, chosen_tier, response⟩
  | .reviewing _ chosen_tier _ calls | .reviewed _ chosen_tier calls _ _ =>
    ∃ chore, lastChore cs = some ⟨.Chore, chosen_tier, .ok chore⟩
      ∧ extract_tool_calls M.text chore.raw = .ok calls
  | _ => True

theorem Proposed.next {cs : List Completion} {p q : Point} (h : Proposed M cs p)
    (hnext : Point.Next M task budget p q) : Proposed M (cs ++ q.obtained.toList) q := by
  cases hnext with
  | answer chosen_tier response => simp [Proposed, lastChore, Point.obtained]
  | propose turn_cost hbudget htool hcalls =>
    refine ⟨_, ?_, hcalls⟩
    simpa [Point.obtained, Proposed] using h
  | review decision_tier response =>
    obtain ⟨chore, hlast, hcalls⟩ := h
    refine ⟨chore, ?_, hcalls⟩
    simpa [Point.obtained, lastChore] using hlast
  | _ => trivial

/-- Wherever a run is, the calls under review are those of the last chore response. -/
theorem proposed {s : Sys W U E} {ms : List (Config W U E × Config W U E)}
    (hms : ms <+: moves M task budget s) {p : Point}
    (hp : (Blocks.stop (.ok .start, s) ms).1 = .ok p) : Proposed M (completions ms) p := by
  refine Blocks.along (control M task budget)
    (Q := fun ms d => ∀ p, d.1 = .ok p → Proposed M (completions ms) p) ?_ ?_ hms p hp
  · intro p hp
    cases hp
    trivial
  · intro ms d d' hQ hadvance q hq
    obtain ⟨_ | p, s₁⟩ := d
    · cases hadvance
    obtain ⟨_ | q', s₂⟩ := d'
    · cases hq
    cases hq
    rw [completions_snoc]
    exact (hQ p rfl).next (next_of_advance hadvance)

/-- The replies that the prompt declares to be overrides. -/
def vetoes (plan : Str) : Bool := plan.isEmpty || starts_with "OVERRIDE:" plan

/-- The calls that are looked up and, where the cache does not have them, executed from here. -/
def dispatched (c : Config W U E) : List ToolCall :=
  match c.1 with
  | .ok (.calling _ _ calls) => calls
  | _ => []

/-- The cache, the tools and what they have done are as before. -/
structure Untouched (s s' : Sys W U E) : Prop where
  cache : s'.self.cache = s.self.cache
  executor : s'.self.executor = s.self.executor
  world : s'.world = s.world
  ledger : s'.ledger = s.ledger

/-- From a decision on, none of the calls is looked up or executed. -/
structure Spares (calls : List ToolCall) (m : Config W U E × Config W U E)
    (after : List (Config W U E × Config W U E)) : Prop where
  dispatched : ∀ call ∈ calls, call ∉ dispatched m.2
  untouched : ∀ m' ∈ after.head?, Untouched m.1.2 m'.2.2

theorem Untouched.rfl {s : Sys W U E} : Untouched s s :=
  ⟨Eq.refl _, Eq.refl _, Eq.refl _, Eq.refl _⟩

theorem Untouched.trans {s s' s'' : Sys W U E} (h : Untouched s s') (h' : Untouched s' s'') :
    Untouched s s'' where
  cache := h'.cache.trans h.cache
  executor := h'.executor.trans h.executor
  world := h'.world.trans h.world
  ledger := h'.ledger.trans h.ledger

section Sparing

variable {α β : Type}

theorem untouched_bind {x : RunM W U E α} {f : α → RunM W U E β} (hx : Keeps Untouched x)
    (hf : ∀ a, Keeps Untouched (f a)) : Keeps Untouched (x >>= f) :=
  Keeps.bind (r := Untouched) (fun _ _ _ h h' => h.trans h') hx hf

theorem untouched_pure {a : α} : Keeps Untouched (pure a : RunM W U E α) :=
  Keeps.pure (fun _ => .rfl) a

theorem untouched_of {f : Sys W U E → Except Exn α × Sys W U E} (h : ∀ s, Untouched s (f s).2) :
    Keeps Untouched (Prog.of f) := h

theorem untouched_record {kind : EventKind} {payload : List (Str × Json)} :
    Keeps Untouched (record kind payload : RunM W U E Unit) :=
  untouched_of fun _ => ⟨rfl, rfl, rfl, rfl⟩

/-- Without calls, nothing is looked up or executed. -/
theorem untouched_calling (l : Loop) (chosen_tier : Tier) :
    Keeps Untouched ((Point.calling l chosen_tier []).block M task budget : RunM W U E Point) := by
  unfold Point.block
  refine untouched_bind (untouched_of fun _ => .rfl) fun working =>
    untouched_bind untouched_record fun _ => ?_
  refine untouched_bind (untouched_of fun _ => .rfl) fun views =>
    untouched_bind (fun s => ?_) fun records => untouched_pure
  refine ⟨rfl, rfl, rfl, ?_⟩
  exact List.append_nil s.ledger

theorem untouched_reviewed (r : Reviewed) :
    Keeps Untouched (r.point.block M task budget : RunM W U E Point) :=
  (runs_block r.point).keeps (fun _ => .rfl) (fun _ _ _ => .trans) fun k hk β y hy => by
    cases hy with
    | record => exact untouched_record
    | cascade => exact untouched_of fun _ => ⟨rfl, rfl, rfl, rfl⟩
    | _ => simp [Reviewed.point] at hk

end Sparing

/-- What `run` takes for an override is a veto that says what to do. -/
theorem overridePlan_isSome {plan : Str} (hveto : vetoes plan) :
    (overridePlan plan).isSome ↔ plan ≠ [] := by
  rcases plan with _ | ⟨c, plan⟩
  · decide
  · have hstarts : starts_with "OVERRIDE:" (c :: plan) = true := hveto
    have hconfirm : c :: plan ≠ lit "CONFIRM" := fun h => by
      rw [h] at hstarts
      revert hstarts
      decide
    simp [overridePlan, hstarts, hconfirm]

/-- After a veto that `run` takes for an override, or with no call under review, there is nothing
to call. -/
theorem spared_next {r : Reviewed} {q : Point} (h : Point.Next M task budget r.point q)
    (hspared : (overridePlan r.resp.outcome.plan).isSome ∨ r.calls = []) :
    q = .calling r.l r.chosen_tier [] ∨ ∃ result, q = .ended result := by
  obtain ⟨l, chosen_tier, calls, decision_tier, resp⟩ := r
  cases h with
  | confirm hnone =>
    rw [hnone] at hspared
    rcases hspared with hsome | rfl
    · cases hsome
    · exact .inl rfl
  | overrideEnd => exact .inr ⟨_, rfl⟩
  | override => exact .inl rfl

/-- The calls under review are spared by what `run` takes for an override. -/
theorem spared {s s₁ : Sys W U E} {before after : List (Config W U E × Config W U E)}
    {c : Config W U E} {r : Reviewed}
    (hms : moves M task budget s = before ++ ((.ok r.point, s₁), c) :: after)
    (hdecided : (overridePlan r.resp.outcome.plan).isSome ∨ r.calls = []) :
    Spares r.calls ((.ok r.point, s₁), c) after := by
  have hmem : ((.ok r.point, s₁), c) ∈ moves M task budget s :=
    hms ▸ List.mem_append_right _ List.mem_cons_self
  have hadvance := Blocks.advance_of_mem _ hmem
  obtain ⟨-, hexec⟩ := exec_of_advance hadvance
  have huntouched : Untouched s₁ c.2 := by
    have hreviewed : Keeps Untouched (r.point.block M task budget : RunM W U E Point) :=
      untouched_reviewed r
    have hkept := hreviewed s₁
    rwa [hexec] at hkept
  have hafter := Blocks.moves_append (control M task budget) (hms.trans (List.append_cons _ _ _))
  rw [Blocks.stop_append] at hafter
  change (control M task budget).moves c = after at hafter
  obtain ⟨e | q, s₂⟩ := c
  · refine ⟨fun _ _ => List.not_mem_nil, fun m' hm' => ?_⟩
    rw [← hafter] at hm'
    cases Blocks.advance_of_head _ hm'
  · rcases spared_next (next_of_advance hadvance) hdecided with rfl | ⟨result, rfl⟩
    all_goals
      refine ⟨fun _ _ => List.not_mem_nil, fun m' hm' => ?_⟩
      rw [← hafter] at hm'
      obtain ⟨hgoes, hcalling⟩ := exec_of_advance (Blocks.advance_of_head _ hm')
    · have huncalled : Keeps Untouched
          ((Point.calling r.l r.chosen_tier []).block M task budget : RunM W U E Point) :=
        untouched_calling r.l r.chosen_tier
      have hkept := huncalled s₂
      rw [hcalling] at hkept
      exact huntouched.trans hkept
    · cases hgoes

/-- A veto spares the calls under review exactly if it says what to do. -/
theorem veto_spares_iff {s : Sys W U E} {before after : List (Config W U E × Config W U E)}
    {m : Config W U E × Config W U E} (hms : moves M task budget s = before ++ m :: after)
    {r : Reviewed} (hm : m.1.1 = .ok r.point) (hveto : vetoes r.resp.outcome.plan) :
    (∃ chore, lastChore (completions before) = some ⟨.Chore, r.chosen_tier, .ok chore⟩
        ∧ extract_tool_calls M.text chore.raw = .ok r.calls)
      ∧ (Spares r.calls m after ↔ r.resp.outcome.plan ≠ [] ∨ r.calls = []) := by
  obtain ⟨hstop, -⟩ := Blocks.advance_stop _ hms
  have hproposed : Proposed M (completions before) r.point :=
    proposed ⟨m :: after, hms.symm⟩ (by rw [← hstop, hm])
  refine ⟨hproposed, fun hspares => ?_, fun hspared => ?_⟩
  · by_contra hnot
    obtain ⟨hplan, hcalls⟩ := not_or.1 hnot
    have hnone : overridePlan r.resp.outcome.plan = none := by
      rw [not_ne_iff.1 hplan]
      rfl
    have hmem : m ∈ moves M task budget s := hms ▸ List.mem_append_right _ List.mem_cons_self
    obtain ⟨⟨_, s₁⟩, c⟩ := m
    obtain rfl := hm
    obtain ⟨-, hexec⟩ := exec_of_advance (Blocks.advance_of_mem _ hmem)
    rw [Reviewed.point, block_confirmed hnone] at hexec
    obtain rfl : (.ok (.calling r.l r.chosen_tier r.calls), s₁) = c := hexec
    obtain ⟨call, hcall⟩ := List.exists_mem_of_ne_nil _ hcalls
    exact hspares.dispatched call hcall hcall
  · obtain ⟨⟨_, s₁⟩, c⟩ := m
    obtain rfl := hm
    exact spared hms (hspared.imp_left (overridePlan_isSome hveto).2)

/-- What is at hand in a configuration, if a decision has just come in. -/
def reviewedIn (c : Config W U E) : Option Reviewed :=
  match c.1 with
  | .ok (.reviewed l chosen_tier calls decision_tier (.ok resp)) =>
    some ⟨l, chosen_tier, calls, decision_tier, resp⟩
  | _ => none

theorem eq_point {c : Config W U E} {r : Reviewed} (h : reviewedIn c = some r) :
    c.1 = .ok r.point := by
  unfold reviewedIn at h
  split at h
  · next hc =>
    cases h
    exact hc
  · cases h

theorem exists_reviewed (ms : List (Config W U E × Config W U E))
    (P : Config W U E × Config W U E → Reviewed → Bool)
    (h : (ms.any fun m => (reviewedIn m.1).any (P m)) = true) :
    ∃ before m after r, ms = before ++ m :: after ∧ m.1.1 = .ok r.point ∧ P m r = true := by
  obtain ⟨m, hm, h⟩ := List.any_eq_true.1 h
  obtain ⟨r, hr, hP⟩ := (Option.any_eq_true _ _).1 h
  obtain ⟨before, after, hms⟩ := List.append_of_mem hm
  exact ⟨before, m, after, r, hms, eq_point hr, hP⟩

/-- The moves of a run whose decision replies with the plan to the call that the chore proposes. -/
def repliedMoves (plan : String) :
    List (Config FlatFs Empty (List ModelResponse) × Config FlatFs Empty (List ModelResponse)) :=
  moves (scriptedMachine (.ofTable [])) "task" {}
    (scriptedStart {} [proposal "list" "", answer plan, answer "done"])

/-- The call is spared when the decision says what to do instead. -/
theorem veto_spares_halt :
    ∃ before m after calls, repliedMoves "OVERRIDE: halt" = before ++ m :: after
      ∧ calls ≠ [] ∧ Spares calls m after := by
  obtain ⟨before, m, after, r, hms, hm, hr⟩ := exists_reviewed (repliedMoves "OVERRIDE: halt")
    (fun _ r => r.calls ≠ [] ∧ vetoes r.resp.outcome.plan ∧ r.resp.outcome.plan ≠ [])
    (by decide +kernel)
  obtain ⟨hcalls, hveto, hplan⟩ := of_decide_eq_true hr
  exact ⟨before, m, after, r.calls, hms, hcalls, (veto_spares_iff hms hm hveto).2.2 (.inl hplan)⟩

/-- An empty plan halts nothing. -/
theorem empty_plan_not_spared :
    ∃ before m after, ∃ r : Reviewed, repliedMoves "" = before ++ m :: after
      ∧ m.1.1 = .ok r.point ∧ vetoes r.resp.outcome.plan ∧ ¬ Spares r.calls m after := by
  obtain ⟨before, m, after, r, hms, hm, hr⟩ := exists_reviewed (repliedMoves "")
    (fun m r => vetoes r.resp.outcome.plan ∧ ∃ call ∈ r.calls, call ∈ dispatched m.2)
    (by decide +kernel)
  obtain ⟨hveto, call, hcall, hdispatched⟩ := of_decide_eq_true hr
  exact ⟨before, m, after, r, hms, hm, hveto, fun h => h.dispatched call hcall hdispatched⟩

/-- The messages of the chore request that is about to be made. -/
def Point.request : Point → Option Messages
  | asking l => some l.messages
  | _ => none

/-- The messages of the first chore request from here on. -/
def nextRequest (M : Machine W U) (task : Str) (budget : Budget) (c : Config W U E) :
    Option Messages :=
  ((control M task budget).moves c).findSome? fun m =>
    match m.1.1 with
    | .ok p => p.request
    | .error _ => none

theorem nextRequest_stopped {c : Config W U E} (h : (control M task budget).advance c = none) :
    nextRequest M task budget c = none := by
  rw [nextRequest, Blocks.moves_of_none _ h, List.findSome?_nil]

theorem nextRequest_asking (l : Loop) (s : Sys W U E) :
    nextRequest M task budget (.ok (.asking l), s) = some l.messages := by
  rw [nextRequest, Blocks.moves_of_some _ (Blocks.advance_ok (control M task budget) s rfl)]
  rfl

/-- From a point that does not ask, the first request is that of the next one. -/
theorem nextRequest_block {p : Point} (hp : p.request = none) {s : Sys W U E} {request : Messages}
    (h : nextRequest M task budget (.ok p, s) = some request) :
    ∃ q s', (p.block M task budget).exec s = (.ok q, s') ∧ Point.Next M task budget p q
      ∧ nextRequest M task budget (.ok q, s') = some request := by
  rcases hadvance : (control M task budget).advance (.ok p, s) with _ | ⟨e | q, s'⟩
  · rw [nextRequest_stopped hadvance] at h
    cases h
  all_goals
    rw [nextRequest, Blocks.moves_of_some _ hadvance, List.findSome?_cons] at h
    dsimp only at h
    rw [hp] at h
  · exact absurd h (by rw [Blocks.moves_of_none _ rfl]; simp)
  · exact ⟨q, s', (exec_of_advance hadvance).2, next_of_advance hadvance, h⟩

theorem feed_working_set_congr {self self' : Orchestrator W U E} (h : self'.context = self.context)
    (messages : Messages) (turn_ctx : TurnContext) :
    feed_working_set self' messages turn_ctx = feed_working_set self messages turn_ctx := by
  rw [feed_working_set, feed_working_set, h]

theorem yields_run_calls_nil (views : List CallView) :
    Effect.Yields (run_calls M [] views : RunM W U E _) (· = []) := fun s records s' h => by
  cases h
  rfl

theorem yields_calling_nil (l : Loop) (chosen_tier : Tier) :
    Effect.Yields ((Point.calling l chosen_tier []).block M task budget : RunM W U E Point) fun q =>
      ∃ views, q = .called l chosen_tier views [] :=
  .bind fun _ => .bind fun _ => .bind fun views => .bindOf (yields_run_calls_nil views)
    fun records h => by
      subst h
      exact .pure ⟨views, rfl⟩

/-- After an override, the next request is made of the messages and the context of before. -/
theorem nextRequest_override {r : Reviewed} {plan : Str} {s : Sys W U E} {request : Messages}
    (hplan : overridePlan r.resp.outcome.plan = some plan) (hcalls : r.calls ≠ [])
    (h : nextRequest M task budget (.ok r.point, s) = some request) :
    request = feed_working_set s.self r.l.messages { goal := task } := by
  obtain ⟨l, chosen_tier, calls, decision_tier, resp⟩ := r
  obtain ⟨q, s₁, hreviewed, hnext, h⟩ := nextRequest_block rfl h
  have hcontext₁ : s₁.self.context = s.self.context :=
    (steady_reviewed (f := Core.context) (fun _ _ => rfl) _ _ _ _ _).exec hreviewed
  cases hnext with
  | confirm hnone => cases hplan.symm.trans hnone
  | overrideEnd => exact (hcalls rfl).elim
  | override =>
  obtain ⟨q, s₂, hcalling, -, h⟩ := nextRequest_block rfl h
  have hcontext₂ : s₂.self.context = s₁.self.context :=
    (Still.steady (f := Core.context) (still_block rfl)).exec hcalling
  obtain ⟨views, rfl⟩ := yields_calling_nil l chosen_tier _ _ _ hcalling
  obtain ⟨q, s₃, hcalled, -, h⟩ := nextRequest_block rfl h
  have hobserving : (.ok (.observing
      { l with messages := feed_working_set s₂.self l.messages { goal := task } }), s₂)
        = ((.ok q, s₃) : Except Exn Point × Sys W U E) := hcalled
  cases hobserving
  rw [feed_working_set_congr (hcontext₂.trans hcontext₁)] at h
  obtain ⟨q, s₄, -, hnext, h⟩ := nextRequest_block rfl h
  cases hnext
  obtain ⟨q, s₅, -, hnext, h⟩ := nextRequest_block rfl h
  cases hnext with
  | timeOut =>
    obtain ⟨q, s₆, -, hnext, h⟩ := nextRequest_block rfl h
    cases hnext
    rw [nextRequest_stopped rfl] at h
    cases h
  | turn =>
    rw [nextRequest_asking] at h
    exact (Option.some.inj h).symm

/-- The decision replies otherwise. -/
def Reviewed.replied (r : Reviewed) (resp : ModelResponse) : Reviewed := { r with resp := resp }

/-- A request after the decision `r` holds the new plan, and would be another one after another
override. -/
structure FedBack (M : Machine W U) (task : Str) (budget : Budget) (s : Sys W U E) (r : Reviewed)
    (plan : Str) (request : Messages) : Prop where
  contains : ∃ message ∈ request, plan <:+: message.content
  differs : ∀ resp' plan' request', overridePlan resp'.outcome.plan = some plan' → plan' ≠ plan →
    nextRequest M task budget (.ok (r.replied resp').point, s) = some request' → request' ≠ request

/-- An override of proposed calls is not fed back, wherever another override would lead to a chore
request as well. -/
theorem override_not_fed_back {s s₁ : Sys W U E} {c : Config W U E} {r : Reviewed}
    (_ : ((.ok r.point, s₁), c) ∈ moves M task budget s) (hcalls : r.calls ≠ []) {plan : Str}
    (hplan : overridePlan r.resp.outcome.plan = some plan) {request : Messages}
    (hrequest : nextRequest M task budget (.ok r.point, s₁) = some request)
    {resp' : ModelResponse} {plan' : Str} (hplan' : overridePlan resp'.outcome.plan = some plan')
    (hother : plan' ≠ plan) {request' : Messages}
    (hrequest' : nextRequest M task budget (.ok (r.replied resp').point, s₁) = some request') :
    ¬ FedBack M task budget s₁ r plan request := fun h => by
  refine h.differs resp' plan' request' hplan' hother hrequest' ?_
  rw [nextRequest_override hplan hcalls hrequest,
    nextRequest_override (r := r.replied resp') hplan' hcalls hrequest']
  rfl

theorem halt_not_fed_back :
    ∃ m ∈ repliedMoves "OVERRIDE: halt", ∃ r request,
      m.1.1 = .ok r.point
        ∧ nextRequest (scriptedMachine (.ofTable [])) "task" {} m.1 = some request
        ∧ ¬ FedBack (scriptedMachine (.ofTable [])) "task" {} m.1.2 r "halt" request := by
  obtain ⟨before, m, after, r, hms, hm, hr⟩ := exists_reviewed (repliedMoves "OVERRIDE: halt")
    (fun m r => r.calls ≠ [] ∧ overridePlan r.resp.outcome.plan = some (lit "halt")
      ∧ (nextRequest (scriptedMachine (.ofTable [])) "task" {} m.1).isSome
      ∧ (nextRequest (scriptedMachine (.ofTable [])) "task" {}
        (.ok (r.replied (answer "OVERRIDE: stop")).point, m.1.2)).isSome)
    (by decide +kernel)
  obtain ⟨hcalls, hplan, hrequest, hrequest'⟩ := of_decide_eq_true hr
  obtain ⟨request, hrequest⟩ := Option.isSome_iff_exists.1 hrequest
  obtain ⟨request', hrequest'⟩ := Option.isSome_iff_exists.1 hrequest'
  have hmem : m ∈ repliedMoves "OVERRIDE: halt" :=
    hms ▸ List.mem_append_right _ List.mem_cons_self
  obtain ⟨⟨_, s₁⟩, c⟩ := m
  obtain rfl := hm
  exact ⟨_, hmem, r, request, rfl, hrequest,
    override_not_fed_back hmem hcalls hplan hrequest
      (show overridePlan (answer "OVERRIDE: stop").outcome.plan = some (lit "stop") by decide)
      (by decide) hrequest'⟩

/-- The next request does not hold the new plan, and is the same after another override. -/
theorem halt_forgotten :
    ∃ m ∈ repliedMoves "OVERRIDE: halt", ∃ r : Reviewed, ∃ request,
      m.1.1 = .ok r.point ∧ r.calls ≠ [] ∧ overridePlan r.resp.outcome.plan = some (lit "halt")
        ∧ nextRequest (scriptedMachine (.ofTable [])) "task" {} m.1 = some request
        ∧ (∀ message ∈ request, ¬ lit "halt" <:+: message.content)
        ∧ nextRequest (scriptedMachine (.ofTable [])) "task" {}
          (.ok (r.replied (answer "OVERRIDE: stop")).point, m.1.2) = some request := by
  obtain ⟨before, m, after, r, hms, hm, hr⟩ := exists_reviewed (repliedMoves "OVERRIDE: halt")
    (fun m r => r.calls ≠ [] ∧ overridePlan r.resp.outcome.plan = some (lit "halt")
      ∧ ∃ request ∈ nextRequest (scriptedMachine (.ofTable [])) "task" {} m.1,
        (∀ message ∈ request, ¬ lit "halt" <:+: message.content)
          ∧ nextRequest (scriptedMachine (.ofTable [])) "task" {}
            (.ok (r.replied (answer "OVERRIDE: stop")).point, m.1.2) = some request)
    (by decide +kernel)
  obtain ⟨hcalls, hplan, request, hrequest, habsent, hsame⟩ := of_decide_eq_true hr
  exact ⟨m, hms ▸ List.mem_append_right _ List.mem_cons_self, r, request, hm, hcalls, hplan,
    hrequest, habsent, hsame⟩

end Orchestrator

end Praxis
