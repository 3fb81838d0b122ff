import Praxis.Proofs.CacheKeys

/-!
# What the model is told

A run keeps one list of messages, and what it sends is a function of the task, of the context at the
beginning and of the records that the turns have added to the ledger (`requests_conversation`). So
nothing that a tool has returned is left out, told twice or told of another call, and each request
for a plan starts with all that went before.
-/

namespace Praxis

namespace Orchestrator

open Effect (Prog Blocks Keeps)

variable {W U E : Type} {M : Machine W U} {task : Str} {budget : Budget}

/-- The text that stands for a record. -/
def bodyOf (T : JsonText) (rec : ToolExecutionRecord) : Str :=
  match resultBody T rec with
  | .ok body => body
  | .error _ => []

/-- The context once a result has been recorded, and the fact's id. -/
def remember (T : JsonText) (context : ContextManager) (body : Str) : Str × ContextManager :=
  let appended := context.store.append "tool_result" body
  (appended.1, ContextManager.record_tool_result T { context with store := appended.2 } appended.1)

/-- So many results, one after the other. -/
def rememberAll (T : JsonText) : ContextManager → List Str → List Str × ContextManager
  | context, [] => ([], context)
  | context, body :: bodies =>
    let first := remember T context body
    let rest := rememberAll T first.2 bodies
    (first.1 :: rest.1, rest.2)

/-- What the model is told of a turn with these records, and the context after it: the result of
each, and the working set with the results in it. -/
def turnReport (T : JsonText) (task : Str) (context : ContextManager)
    (records : List ToolExecutionRecord) : Messages × ContextManager :=
  let remembered := rememberAll T context (records.map (bodyOf T))
  (records.map (fun rec => toolMessage rec (bodyOf T rec)) ++
      [{ role := "system"
         content := (remembered.2.render_working_set
          { goal := task, recent_tool_results := remembered.1 }).render }],
    remembered.2)

/-- All that the model has been told after turns with these records, and the context then. -/
def conversation (T : JsonText) (task : Str) (context : ContextManager)
    (turns : List (List ToolExecutionRecord)) : Messages × ContextManager :=
  turns.foldl
    (fun told records =>
      let report := turnReport T task told.2 records
      (told.1 ++ report.1, report.2))
    ([{ role := "user", content := task }], context)

theorem conversation_snoc (T : JsonText) (context : ContextManager)
    (turns : List (List ToolExecutionRecord)) (records : List ToolExecutionRecord) :
    conversation T task context (turns ++ [records])
      = ((conversation T task context turns).1
          ++ (turnReport T task (conversation T task context turns).2 records).1,
        (turnReport T task (conversation T task context turns).2 records).2) := by
  rw [conversation, List.foldl_append]
  rfl

theorem foldl_ne_nil {α : Type} {f : Str → α → Str} (hf : ∀ render a, render ≠ [] → f render a ≠ [])
    (as : List α) {render : Str} (h : render ≠ []) : as.foldl f render ≠ [] := by
  induction as generalizing render with
  | nil => exact h
  | cons a as ih => exact ih (hf render a h)

/-- Every working set states the goal. -/
theorem render_ne_nil (context : ContextManager) (ctx : TurnContext) :
    (context.render_working_set ctx).render ≠ [] := by
  have hfacts : context.renderFacts ctx ≠ [] :=
    foldl_ne_nil (fun render e h => by simp [h]) _ (by
      have hgoal : lit "# Goal\n" ≠ [] := by decide
      simp [hgoal])
  unfold ContextManager.render_working_set
  dsimp only
  split_ifs
  · exact hfacts
  · refine foldl_ne_nil (fun render fact h => ?_) _ hfacts
    unfold ContextManager.renderFact
    split_ifs <;> simp [h]

theorem exec_record_result {chosen_tier : Tier} {views : List CallView}
    {rec : ToolExecutionRecord} {s s' : Sys W U E} {r : Str × Message}
    (h : (record_result M chosen_tier views rec).exec s = (.ok r, s')) :
    r = ((remember M.text s.self.context (bodyOf M.text rec)).1,
        toolMessage rec (bodyOf M.text rec))
      ∧ s'.self.context = (remember M.text s.self.context (bodyOf M.text rec)).2 := by
  unfold record_result at h
  obtain ⟨_, s₁, h₁, hrest₁⟩ := Prog.exec_bind_eq_ok.1 h
  obtain ⟨_, s₂, h₂, hrest₂⟩ := Prog.exec_bind_eq_ok.1 hrest₁
  obtain ⟨_, s₃, h₃, hrest₃⟩ := Prog.exec_bind_eq_ok.1 hrest₂
  obtain ⟨_, s₄, h₄, hrest₄⟩ := Prog.exec_bind_eq_ok.1 hrest₃
  obtain ⟨body, s₅, h₅, hrest₅⟩ := Prog.exec_bind_eq_ok.1 hrest₄
  obtain ⟨hbody, rfl⟩ : resultBody M.text rec = .ok body ∧ s₄ = s₅ := Prod.mk.inj h₅
  have hcontext : s₄.self.context = s.self.context := by
    have hcached : s₄.self.context = s₃.self.context :=
      Steady.exec (f := Core.context) (Still.steady still_cache_result) h₄
    have hrecorded : s₂.self.context = s₁.self.context :=
      Steady.exec (f := Core.context) (Still.steady still_record) h₂
    have hfailed : s₃.self.context = s₂.self.context := by
      cases h₃
      split_ifs <;> rfl
    rw [hcached, hfailed, hrecorded]
    cases h₁
    rfl
  obtain rfl : bodyOf M.text rec = body := by rw [bodyOf, hbody]
  cases hrest₅
  rw [← hcontext]
  exact ⟨rfl, rfl⟩

theorem exec_record_results {chosen_tier : Tier} {views : List CallView} :
    ∀ {records : List ToolExecutionRecord} {turn_ctx : TurnContext} {messages : Messages}
      {s s' : Sys W U E} {r : TurnContext × Messages},
      (record_results M chosen_tier views records turn_ctx messages).exec s = (.ok r, s') →
        r = ({ turn_ctx with recent_tool_results := turn_ctx.recent_tool_results
                ++ (rememberAll M.text s.self.context (records.map (bodyOf M.text))).1 },
            messages ++ records.map fun rec => toolMessage rec (bodyOf M.text rec))
          ∧ s'.self.context
            = (rememberAll M.text s.self.context (records.map (bodyOf M.text))).2
  | [], turn_ctx, messages, s, s', r, h => by
    cases h
    simp [rememberAll]
  | rec :: records, turn_ctx, messages, s, s', r, h => by
    obtain ⟨⟨fact_id, message⟩, s₁, h₁, hrest⟩ := Prog.exec_bind_eq_ok.1 h
    obtain ⟨hr, hcontext⟩ := exec_record_result h₁
    obtain ⟨rfl, rfl⟩ := Prod.mk.inj hr
    obtain ⟨rfl, hcontext'⟩ := exec_record_results hrest
    rw [hcontext] at hcontext' ⊢
    simp [rememberAll, hcontext']

/-- What the block of a point does to the messages, the context and the ledger. -/
theorem exec_called {l : Loop} {chosen_tier : Tier} {views : List CallView}
    {records : List ToolExecutionRecord} {q : Point} {s s' : Sys W U E}
    (h : ((Point.called l chosen_tier views records).block M task budget).exec s = (.ok q, s')) :
    q = .observing
        { l with messages := l.messages ++ (turnReport M.text task s.self.context records).1 }
      ∧ s'.self.context = (turnReport M.text task s.self.context records).2 := by
  obtain ⟨⟨turn_ctx, messages⟩, s₁, h₁, hrest₁⟩ := Prog.exec_bind_eq_ok.1 h
  obtain ⟨hr, hcontext⟩ := exec_record_results h₁
  obtain ⟨rfl, rfl⟩ := Prod.mk.inj hr
  cases hrest₁
  refine ⟨?_, hcontext⟩
  have hne := render_ne_nil s₁.self.context
    { goal := task
      recent_tool_results :=
        (rememberAll M.text s.self.context (records.map (bodyOf M.text))).1 }
  rw [hcontext] at hne
  simp [feed_working_set, turnReport, hcontext, hne]

/-- What records no results leaves the context as it is. -/
theorem Runs.unheard {S : List Action} {α : Type} {x : RunM W U E α} (h : Runs M S x)
    (hS : .store ∉ S) : Keeps (fun s s' => s'.self.context = s.self.context) x := by
  refine h.keepsWrites (R := fun s s' => s'.self.context = s.self.context) (fun _ => rfl)
    (fun _ _ _ h h' => h'.trans h) fun k hk _ _ hw => ?_
  cases hw with
  | store => exact absurd hk hS
  | _ => rfl

/-- The records of a turn go to the ledger. -/
theorem ledger_calling {l : Loop} {chosen_tier : Tier} {calls : List ToolCall} {q : Point}
    {s s' : Sys W U E}
    (h : ((Point.calling l chosen_tier calls).block M task budget).exec s = (.ok q, s')) :
    ∃ views records, q = .called l chosen_tier views records
      ∧ s'.ledger = s.ledger ++ records := by
  obtain ⟨payload, s₁, records, hrecord, hrun, rfl⟩ := exec_calling h
  refine ⟨_, records, rfl, ?_⟩
  have hruns : Runs M [.record] (record .WorkingSetRendered payload : RunM W U E Unit) :=
    runs_record (List.mem_singleton_self _)
  have hkept := hruns.unlisted (by decide) s
  rw [hrecord] at hkept
  rw [(noted_run_calls hrun).1, hkept.1]

/-- After so many finished turns, with these records, the messages are what the conversation has
come to. -/
structure Told (T : JsonText) (task : Str) (budget : Budget) (s₀ s : Sys W U E)
    (turns : List (List ToolExecutionRecord)) (l : Loop) (begun : ℕ) : Prop where
  messages : l.messages = (conversation T task s₀.self.context turns).1
  context : s.self.context = (conversation T task s₀.self.context turns).2
  turn : l.i = UInt32.ofNat turns.length
  remaining : turns.length + begun + l.remaining = (max_turns budget).toNat

/-- What has been told at a point. -/
def Conversed (T : JsonText) (task : Str) (budget : Budget) (s₀ s : Sys W U E) : Point → Prop
  | .start => s.ledger = s₀.ledger ∧ s.self.context = s₀.self.context
  | .head l => ∃ turns, Told T task budget s₀ s turns l 0 ∧ s.ledger = s₀.ledger ++ turns.flatten
  | .asking l | .answered l _ _ | .reviewing l _ _ _ | .reviewed l _ _ _ _ | .calling l _ _ =>
    ∃ turns, Told T task budget s₀ s turns l 1 ∧ s.ledger = s₀.ledger ++ turns.flatten
  | .called l _ _ records =>
    ∃ turns, Told T task budget s₀ s turns l 1
      ∧ s.ledger = s₀.ledger ++ (turns ++ [records]).flatten
  | .observing l =>
    ∃ turns, Told T task budget s₀ s turns { l with i := l.i + 1 } 0
      ∧ s.ledger = s₀.ledger ++ turns.flatten
  | .leaving _ | .ended _ => True

theorem Told.congr {T : JsonText} {s₀ s s' : Sys W U E} {turns : List (List ToolExecutionRecord)}
    {l l' : Loop} {begun begun' : ℕ} (h : Told T task budget s₀ s turns l begun)
    (hcontext : s'.self.context = s.self.context) (hmessages : l'.messages = l.messages)
    (hi : l'.i = l.i) (hremaining : begun' + l'.remaining = begun + l.remaining) :
    Told T task budget s₀ s' turns l' begun' where
  messages := hmessages.trans h.messages
  context := hcontext.trans h.context
  turn := hi.trans h.turn
  remaining := by
    have hturns := h.remaining
    omega

/-- The points whose blocks neither run calls nor record their results. -/
def Point.quiet : Point → Bool
  | calling _ _ _ | called _ _ _ _ => false
  | _ => true

theorem kept_quiet {p q : Point} (hp : p.quiet = true) {s s' : Sys W U E}
    (h : (p.block M task budget).exec s = (.ok q, s')) :
    s'.self.context = s.self.context ∧ s'.ledger = s.ledger := by
  have hactions : .store ∉ p.actions ∧ .ledger ∉ p.actions := by
    cases p with
    | calling | called => cases hp
    | answered l chosen_tier response => cases response <;> simp
    | _ => simp
  have hruns : Runs M p.actions (p.block M task budget : RunM W U E Point) := runs_block p
  have hcontext := hruns.unheard hactions.1 s
  have hledger := hruns.unlisted hactions.2 s
  rw [h] at hcontext hledger
  exact ⟨hcontext, hledger.1⟩

/-- Between two points of a turn that leave the loop's variables alone. -/
theorem told_on {T : JsonText} {s₀ s s' : Sys W U E} {l l' : Loop}
    (h : ∃ turns, Told T task budget s₀ s turns l 1 ∧ s.ledger = s₀.ledger ++ turns.flatten)
    (hcontext : s'.self.context = s.self.context) (hledger : s'.ledger = s.ledger)
    (hmessages : l'.messages = l.messages) (hi : l'.i = l.i)
    (hremaining : l'.remaining = l.remaining) :
    ∃ turns, Told T task budget s₀ s' turns l' 1 ∧ s'.ledger = s₀.ledger ++ turns.flatten := by
  obtain ⟨turns, htold, hflat⟩ := h
  exact ⟨turns, htold.congr hcontext hmessages hi (by rw [hremaining]), hledger.trans hflat⟩

theorem conversed_block {s₀ s s' : Sys W U E} {p q : Point} (hfinal : p.final = false)
    (hp : Conversed M.text task budget s₀ s p)
    (h : (p.block M task budget).exec s = (.ok q, s')) :
    Conversed M.text task budget s₀ s' q := by
  have hnext := Point.next_block p hfinal s q s' h
  cases hnext with
  | start =>
    obtain ⟨hcontext, hledger⟩ := kept_quiet (by rfl) h
    refine ⟨[], ⟨rfl, hcontext.trans hp.2, rfl, by simp⟩, ?_⟩
    rw [hledger, hp.1]
    simp
  | @turn l n hremaining =>
    obtain ⟨hcontext, hledger⟩ := kept_quiet (by rfl) h
    obtain ⟨turns, htold, hflat⟩ := hp
    refine ⟨turns, htold.congr hcontext rfl rfl ?_, hledger.trans hflat⟩
    rw [hremaining]
    exact Nat.add_comm 1 n |>.trans (Nat.zero_add _).symm
  | answer =>
    obtain ⟨hcontext, hledger⟩ := kept_quiet (by rfl) h
    exact told_on hp hcontext hledger rfl rfl rfl
  | propose =>
    obtain ⟨hcontext, hledger⟩ := kept_quiet (by rfl) h
    exact told_on hp hcontext hledger rfl rfl rfl
  | review =>
    obtain ⟨hcontext, hledger⟩ := kept_quiet (by rfl) h
    exact told_on hp hcontext hledger rfl rfl rfl
  | stand =>
    obtain ⟨hcontext, hledger⟩ := kept_quiet (by rfl) h
    exact told_on hp hcontext hledger rfl rfl rfl
  | confirm =>
    obtain ⟨hcontext, hledger⟩ := kept_quiet (by rfl) h
    exact told_on hp hcontext hledger rfl rfl rfl
  | override =>
    obtain ⟨hcontext, hledger⟩ := kept_quiet (by rfl) h
    exact told_on hp hcontext hledger rfl rfl rfl
  | @call l chosen_tier calls views records =>
    obtain ⟨views, records', hq, hledger⟩ := ledger_calling h
    cases hq
    obtain ⟨turns, htold, hflat⟩ := hp
    have hruns : Runs M (Point.calling l chosen_tier calls).actions
        ((Point.calling l chosen_tier calls).block M task budget : RunM W U E Point) := runs_block _
    have hcontext := hruns.unheard (by simp) s
    rw [h] at hcontext
    refine ⟨turns, htold.congr hcontext rfl rfl rfl, ?_⟩
    rw [hledger, hflat]
    simp
  | @results l chosen_tier views records messages =>
    obtain ⟨hq, hcontext⟩ := exec_called h
    cases hq
    obtain ⟨turns, htold, hflat⟩ := hp
    have hruns : Runs M (Point.called l chosen_tier views records).actions
        ((Point.called l chosen_tier views records).block M task budget : RunM W U E Point) :=
      runs_block _
    have hledger := hruns.unlisted (by simp) s
    rw [h] at hledger
    refine ⟨turns ++ [records], ⟨?_, ?_, ?_, ?_⟩, hledger.1.trans hflat⟩
    · rw [conversation_snoc, ← htold.messages, ← htold.context]
    · rw [conversation_snoc, ← htold.context, hcontext]
    · rw [List.length_append, List.length_singleton, UInt32.ofNat_add, ← htold.turn]
      rfl
    · have hremaining := htold.remaining
      rw [List.length_append, List.length_singleton]
      exact hremaining
  | round =>
    obtain ⟨hcontext, hledger⟩ := kept_quiet (by rfl) h
    obtain ⟨turns, htold, hflat⟩ := hp
    exact ⟨turns, htold.congr hcontext rfl rfl rfl, hledger.trans hflat⟩
  | _ => trivial

theorem conversed_advance {s₀ : Sys W U E} {c c' : Config W U E}
    (hc : ∀ p, c.1 = .ok p → Conversed M.text task budget s₀ c.2 p)
    (h : (control M task budget).advance c = some c') :
    ∀ p, c'.1 = .ok p → Conversed M.text task budget s₀ c'.2 p := by
  obtain ⟨_ | p, s⟩ := c
  · cases h
  · obtain ⟨hfinal, hexec⟩ := exec_of_advance h
    obtain ⟨r, s'⟩ := c'
    intro q hq
    cases hq
    exact conversed_block hfinal (hc p rfl) hexec

/-- The messages of the requests for a plan. -/
def choreRequests (ms : List (Config W U E × Config W U E)) : List Messages :=
  ms.filterMap fun m =>
    match m.1.1 with
    | .ok (.asking l) => some l.messages
    | _ => none

/-- One list of messages goes on where the other ends. -/
def Extends (messages request : Messages) : Prop :=
  request <+: messages ∧ request.length < messages.length

/-- What is in hand at a point goes on from a request that has been sent. -/
def Point.follows (request : Messages) : Point → Prop
  | .start => False
  | .head l | .asking l | .observing l => Extends l.messages request
  | .answered l _ _ | .reviewing l _ _ _ | .reviewed l _ _ _ _ | .calling l _ _
  | .called l _ _ _ => request <+: l.messages
  | .leaving _ | .ended _ => True

theorem follows_block {request : Messages} {s s' : Sys W U E} {p q : Point}
    (hfinal : p.final = false) (hp : p.follows request)
    (h : (p.block M task budget).exec s = (.ok q, s')) : q.follows request := by
  have hnext := Point.next_block p hfinal s q s' h
  cases hnext with
  | start => exact hp.elim
  | answer => exact hp.1
  | results =>
    obtain ⟨hq, -⟩ := exec_called h
    cases hq
    exact ⟨hp.trans (List.prefix_append _ _), by
      have hlength := hp.length_le
      simp only [List.length_append, turnReport, List.length_singleton]
      omega⟩
  | turn | propose | review | stand | confirm | override | call | round => exact hp
  | timeOut | fail | bound | complete | overrideEnd | finish => trivial

/-- Each request goes on from those before, and so does what is in hand. -/
def Extended (ms : List (Config W U E × Config W U E)) (c : Config W U E) : Prop :=
  (choreRequests ms).Pairwise (fun request later => Extends later request)
    ∧ ∀ p, c.1 = .ok p → ∀ request ∈ choreRequests ms, p.follows request

theorem extended_advance {ms : List (Config W U E × Config W U E)} {c c' : Config W U E}
    (hc : Extended ms c) (h : (control M task budget).advance c = some c') :
    Extended (ms ++ [(c, c')]) c' := by
  obtain ⟨_ | p, s⟩ := c
  · cases h
  · obtain ⟨hfinal, hexec⟩ := exec_of_advance h
    obtain ⟨r, s'⟩ := c'
    have hold : ∀ q, r = .ok q → ∀ request ∈ choreRequests ms, q.follows request := by
      rintro q rfl request hrequest
      exact follows_block hfinal (hc.2 p rfl request hrequest) hexec
    have happend : choreRequests (ms ++ [((.ok p, s), (r, s'))]) = choreRequests ms
        ++ choreRequests [(((.ok p, s) : Config W U E), ((r, s') : Config W U E))] :=
      List.filterMap_append
    unfold Extended
    rw [happend]
    by_cases hp : ∃ l, p = .asking l
    · obtain ⟨l, rfl⟩ := hp
      refine ⟨List.pairwise_append.2 ⟨hc.1, List.pairwise_singleton _ _, ?_⟩, ?_⟩
      · intro request hrequest later hlater
        obtain rfl := List.mem_singleton.1 hlater
        exact hc.2 _ rfl request hrequest
      · rintro q rfl request hrequest
        rcases List.mem_append.1 hrequest with hrequest | hrequest
        · exact hold q rfl request hrequest
        · obtain rfl := List.mem_singleton.1 hrequest
          cases Point.next_block _ hfinal s q s' hexec
          exact List.prefix_refl _
    · have hnone :
          choreRequests [(((.ok p, s) : Config W U E), ((r, s') : Config W U E))] = [] := by
        cases p with
        | asking l => exact (hp ⟨l, rfl⟩).elim
        | _ => rfl
      rw [hnone, List.append_nil]
      exact ⟨hc.1, hold⟩

/-- What a request sends. -/
def Point.sends : Point → Option Messages
  | .asking l => some l.messages
  | .reviewing l _ plan calls => some (l.messages ++ [reviewMessage plan calls.length])
  | _ => none

/-- Every request sends the conversation about the turns so far, whose records are those that the
run has added to the ledger, and a request for a decision asks about the plan besides. Each request
for a plan goes on where the ones before it ended. -/
theorem requests_conversation (M : Machine W U) (task : Str) (budget : Budget) (s₀ : Sys W U E) :
    (∀ m ∈ moves M task budget s₀, ∀ p sent, m.1.1 = .ok p → p.sends = some sent →
      ∃ turns : List (List ToolExecutionRecord),
        m.1.2.ledger = s₀.ledger ++ turns.flatten
          ∧ turns.length < (max_turns budget).toNat
          ∧ (sent = (conversation M.text task s₀.self.context turns).1
            ∨ ∃ plan count, sent = (conversation M.text task s₀.self.context turns).1
              ++ [reviewMessage plan count]))
      ∧ (choreRequests (moves M task budget s₀)).Pairwise
        fun request later => Extends later request := by
  constructor
  · intro m hm p sent hp hsent
    have hconversed := (Blocks.mem_moves (control M task budget)
      (I := fun c => ∀ p, c.1 = .ok p → Conversed M.text task budget s₀ c.2 p)
      (fun c c' hc h => conversed_advance hc h)
      (fun p hp => by
        cases hp
        exact ⟨rfl, rfl⟩) m hm).1 p hp
    cases p with
    | asking l =>
      obtain rfl := Option.some.inj hsent
      obtain ⟨turns, htold, hflat⟩ := hconversed
      have hremaining := htold.remaining
      exact ⟨turns, hflat, by omega, .inl htold.messages⟩
    | reviewing l chosen_tier plan calls =>
      obtain rfl := Option.some.inj hsent
      obtain ⟨turns, htold, hflat⟩ := hconversed
      have hremaining := htold.remaining
      exact ⟨turns, hflat, by omega, .inr ⟨plan, calls.length, by rw [htold.messages]⟩⟩
    | _ => cases hsent
  · have hextended := Blocks.along (control M task budget) (Q := Extended) (c := (.ok .start, s₀))
      ⟨List.Pairwise.nil, fun p hp request hrequest => by cases hrequest⟩
      (fun ms d d' hd h => extended_advance hd h) (List.prefix_refl _)
    exact hextended.1

end Orchestrator

end Praxis
