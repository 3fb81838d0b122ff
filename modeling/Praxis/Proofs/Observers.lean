import Praxis.Lib.Watch
import Praxis.Observers
import Praxis.Proofs.Control

/-!
# Observers do not disturb a run

An observer that never throws changes nothing but its own state, which ends as if the events of the
run were replayed into it afterwards. An exception that it throws ends the run at that event
(`run_observed`).
-/

namespace Praxis

namespace Orchestrator

open Effect (Prog Watch)

variable {W U E F α : Type} (sink : EventSink F)

/-- A run and the observer of its events; the other sinks do not throw. -/
def observer : Watch Exn (Sys W U E) (Sys W U (E × F)) Event F where
  see := sink.on_event
  log := fun s => s.self.replay.events
  lift := Sys.observed sink
  logged := fun s => s.self.replay.events
  seen := fun s => s.env.2
  calm := fun s => s.self.replay.Quiet

abbrev Observed (x : RunM W U E α) (y : RunM W U (E × F) α) : Prop := (observer sink).Shows x y

theorem feed_observer : ∀ (events : List Event) (f : F),
    (observer sink : Watch Exn (Sys W U E) _ _ _).feed events f = Replay.feed sink events f
  | [], _ => rfl
  | e :: events, f => by
    rw [Watch.feed, Replay.feed, show (observer sink : Watch Exn (Sys W U E) _ _ _).see e f
      = sink.on_event e f from rfl]
    rcases sink.on_event e f with ⟨_ | _, f'⟩
    · rfl
    · exact feed_observer events f'

variable {sink}

theorem observed_silent {x : RunM W U E α} {y : RunM W U (E × F) α}
    (hreplay : ∀ s, (x.exec s).2.self.replay = s.self.replay)
    (h : ∀ s f, y.exec (s.observed sink f) = ((x.exec s).1, (x.exec s).2.observed sink f)) :
    Observed sink x y :=
  .silent fun s hs => by
    refine ⟨?_, congrArg Replay.events (hreplay s), h s⟩
    show (x.exec s).2.self.replay.Quiet
    rw [hreplay]
    exact hs

theorem observed_modifySelf {g : Orchestrator W U E → Orchestrator W U E}
    {g' : Orchestrator W U (E × F) → Orchestrator W U (E × F)}
    (hreplay : ∀ self, (g self).replay = self.replay)
    (h : ∀ self, g' (self.beside.attach_observer sink.above)
      = (g self).beside.attach_observer sink.above) :
    Observed sink (modifySelf g) (modifySelf g') :=
  observed_silent (fun s => hreplay s.self) fun s f => by
    rw [exec_modifySelf, exec_modifySelf]
    unfold Sys.observed
    rw [h]

/-- A step that reads and changes what has no part in recording. -/
theorem observed_step {g : Sys W U E → α × Sys W U E} {g' : Sys W U (E × F) → α × Sys W U (E × F)}
    (hreplay : ∀ s, (g s).2.self.replay = s.self.replay)
    (h : ∀ s f, g' (s.observed sink f) = ((g s).1, (g s).2.observed sink f)) :
    Observed sink (Prog.step g) (Prog.step g') :=
  observed_silent hreplay fun s f => by rw [Prog.exec_step, Prog.exec_step, h]

theorem completeLoop_beside (inner : Provider E) (context : Messages) (f : F) :
    ∀ (attempts : ℕ) (backoff : ℤ) (last : Result ModelResponse) (self : RetryingProvider E)
      (env : E),
      RetryingProvider.completeLoop inner.beside context attempts backoff last self.beside (env, f)
        = let done := RetryingProvider.completeLoop inner context attempts backoff last self env
          (done.1, done.2.1.beside, done.2.2, f)
  | 0, _, _, _, _ => rfl
  | attempts + 1, backoff, last, self, env => by
    have hinner : inner.beside.complete context (env, f)
        = ((inner.complete context env).1, (inner.complete context env).2, f) := rfl
    unfold RetryingProvider.completeLoop
    rw [hinner]
    rcases inner.complete context env with ⟨e | err | resp, env'⟩
    · rfl
    · dsimp only
      split_ifs
      · rfl
      · exact completeLoop_beside inner context f attempts _ _ (self.countAttempt.backOff backoff) _
    · rfl

theorem complete_beside (self : RetryingProvider E) (context : Messages) (env : E) (f : F) :
    self.beside.complete context (env, f)
      = let done := self.complete context env
        (done.1, done.2.1.beside, done.2.2, f) := by
  rcases self with ⟨_ | inner, policy, attempts, retries, slept⟩
  · rfl
  · exact completeLoop_beside inner context f _ _ _ _ _

variable (sink) in
theorem for_tier_observed (self : Orchestrator W U E) (tier : Tier) :
    (self.beside.attach_observer sink.above : Orchestrator W U (E × F)).for_tier tier
      = (self.for_tier tier).map fun p => (p.1, p.2.beside) := by
  unfold for_tier
  show (self.router.lookup tier).bind (fun i =>
    ((self.retrying.map RetryingProvider.beside)[i]?).map fun p => (i, p)) = _
  rcases self.router.lookup tier with _ | i
  · rfl
  · rw [Option.bind_some, Option.bind_some, List.getElem?_map]
    rcases self.retrying[i]? with _ | p <;> rfl

theorem observed_complete_for {role : Role} {messages : Messages} :
    Observed sink (complete_for role messages : RunM W U E _) (complete_for role messages) := by
  refine observed_silent (fun s => ?_) fun s f => ?_
  · unfold complete_for
    rw [Prog.exec_of]
    dsimp only
    split <;> rfl
  · have htier := for_tier_observed sink s.self (s.self.cascade.route_for role)
    unfold complete_for
    rw [Prog.exec_of, Prog.exec_of]
    dsimp only
    rw [show (s.observed sink f).self.for_tier
      ((s.observed sink f).self.cascade.route_for role) = _ from htier]
    rcases s.self.for_tier (s.self.cascade.route_for role) with _ | ⟨i, provider⟩
    · rfl
    · dsimp only [Option.map_some]
      rw [show (s.observed sink f).env = (s.env, f) from rfl, complete_beside]
      unfold Sys.observed Orchestrator.beside attach_observer
      simp only [List.map_set]

theorem observed_complete_and_observe {role : Role} {messages : Messages} :
    Observed sink (complete_and_observe role messages : RunM W U E _)
      (complete_and_observe role messages) := by
  unfold complete_and_observe
  refine .bind (observed_step (fun _ => rfl) fun _ _ => rfl) fun tier => ?_
  refine .bind observed_complete_for fun response => ?_
  exact .bind (observed_modifySelf (fun _ => rfl) fun _ => rfl) fun _ => .pure _

theorem observed_account {raw : Json} :
    Observed sink (account raw : RunM W U E _) (account raw) := by
  unfold account
  split
  · exact .pure _
  · exact .bind (.ofExcept _) fun prompt => .bind (.ofExcept _) fun completion =>
      observed_step (fun _ => rfl) fun _ _ => rfl

theorem observed_execute_pending {M : Machine W U} {pending : List ToolCall} :
    Observed sink (execute_pending M pending : RunM W U E _) (execute_pending M pending) := by
  unfold execute_pending
  split_ifs
  · exact .pure _
  · exact observed_silent (fun _ => rfl) fun _ _ => rfl

theorem observed_take_snapshot {M : Machine W U} :
    Observed sink (take_snapshot M : RunM W U E _) (take_snapshot M) := by
  refine observed_silent (fun s => ?_) fun s f => ?_
  · unfold take_snapshot
    rw [Prog.exec_of]
    dsimp only
    split_ifs
    · rfl
    · split <;> rfl
  · unfold take_snapshot
    rw [Prog.exec_of, Prog.exec_of]
    dsimp only
    rw [show (s.observed sink f).self.options = s.self.options from rfl,
      show (s.observed sink f).world = s.world from rfl]
    split_ifs
    · rfl
    · split <;> rfl

/-- The observer comes last, when the others have taken the event. -/
theorem notify_beside {e : Event} (f : F) :
    ∀ {sinks : List (EventSink E)}, (∀ s ∈ sinks, ∀ e env, (s.on_event e env).1 = .ok ()) →
      ∀ env, Replay.notify e (sinks.map EventSink.beside ++ [sink.above]) (env, f)
        = ((sink.on_event e f).1, (Replay.notify e sinks env).2, (sink.on_event e f).2)
  | [], _, env => by
    have hsee : (sink.above : EventSink (E × F)).on_event e (env, f)
        = ((sink.on_event e f).1, env, (sink.on_event e f).2) := rfl
    rw [List.map_nil, List.nil_append, Replay.notify, Replay.notify, hsee]
    rcases sink.on_event e f with ⟨_ | _, f'⟩ <;> rfl
  | first :: sinks, h, env => by
    have hfirst := h first List.mem_cons_self e env
    have hsee : (first.beside : EventSink (E × F)).on_event e (env, f)
        = ((first.on_event e env).1, (first.on_event e env).2, f) := rfl
    rw [List.map_cons, List.cons_append, Replay.notify, hsee, Replay.notify,
      ← Prod.mk.eta (p := first.on_event e env), hfirst]
    exact notify_beside f (fun s hs => h s (List.mem_cons_of_mem _ hs)) _

theorem record_beside {replay : Replay E} (h : replay.Quiet) (event : Event) (env : E) (f : F) :
    (replay.beside.subscribe sink.above).record event (env, f)
      = ((sink.on_event (replay.numbered event) f).1,
        (replay.push event).beside.subscribe sink.above, (replay.record event env).2.2,
        (sink.on_event (replay.numbered event) f).2) := by
  unfold Replay.record
  rw [show (replay.beside.subscribe sink.above : Replay (E × F)).sinks
    = replay.sinks.map EventSink.beside ++ [sink.above] from rfl,
    show (replay.beside.subscribe sink.above : Replay (E × F)).numbered event
      = replay.numbered event from rfl, notify_beside f h]
  rfl

theorem observed_record {kind : EventKind} {payload : List (Str × Json)} :
    Observed sink (record kind payload : RunM W U E _) (record kind payload) := by
  intro s f hs
  have hquiet : s.self.replay.Quiet := hs
  let event : Event := { kind := kind, payload := .ofFields payload }
  let s' : Sys W U E :=
    { s with
      self := { s.self with replay := s.self.replay.push event }
      env := (s.self.replay.record event s.env).2.2 }
  have hbare : (record kind payload).exec s = (.ok (), s') := by
    rw [← Replay.record_ok hquiet event s.env]
    rfl
  have hexec : (record kind payload).exec (s.observed sink f)
      = ((sink.on_event (s.self.replay.numbered event) f).1,
        s'.observed sink (sink.on_event (s.self.replay.numbered event) f).2) := by
    unfold record
    rw [Prog.exec_of]
    dsimp only
    rw [show (s.observed sink f).self.replay = s.self.replay.beside.subscribe sink.above from rfl,
      show (s.observed sink f).env = (s.env, f) from rfl, record_beside hquiet]
    rfl
  refine ⟨?_, [s.self.replay.numbered event], by rw [hbare]; rfl, ?_⟩
  · rw [hbare]
    exact hquiet
  show _ ∨ _
  rw [show (observer sink).lift s f = s.observed sink f from rfl, hexec, hbare]
  rcases hsee : sink.on_event (s.self.replay.numbered event) f with ⟨err | u, f'⟩
  · exact .inr ⟨[], _, [], f, err, rfl, rfl, hsee, rfl, (List.append_nil _).symm ▸ rfl⟩
  · refine .inl ⟨f', ?_, rfl⟩
    rw [feed_observer, Replay.feed, hsee]
    rfl

theorem observed_decision_review {turn : UInt32} {messages : Messages} {plan : Str}
    {calls : List ToolCall} :
    Observed sink (decision_review turn messages plan calls : RunM W U E _)
      (decision_review turn messages plan calls) := by
  unfold decision_review
  refine .bind observed_complete_and_observe fun (decision_tier, response) => ?_
  cases response with
  | error err => exact .bind (observed_modifySelf (fun _ => rfl) fun _ => rfl) fun _ => .pure _
  | ok resp =>
    dsimp only
    split
    · exact .pure _
    · refine .bind observed_record fun _ => ?_
      refine .bind (observed_modifySelf (fun _ => rfl) fun _ => rfl) fun _ => ?_
      split_ifs
      · exact .bind observed_record fun _ => .pure _
      · exact .pure _

theorem observed_lookup_call {view : CallView} :
    Observed sink (lookup_call view : RunM W U E _) (lookup_call view) := by
  unfold lookup_call
  refine .bind (observed_step (fun _ => rfl) fun _ _ => rfl) fun cached => ?_
  refine .bind (observed_modifySelf (fun _ => rfl) fun _ => rfl) fun _ => ?_
  split_ifs
  · exact .bind observed_record fun _ => .pure _
  · exact .pure _

theorem observed_lookup_calls : ∀ {calls : List (ToolCall × CallView)} {i : ℕ},
    Observed sink (lookup_calls i calls : RunM W U E _) (lookup_calls i calls)
  | [], _ => .pure _
  | (call, view) :: calls, i => by
    unfold lookup_calls
    refine .bind observed_lookup_call fun cached => .bind observed_lookup_calls fun found => ?_
    cases cached <;> exact .pure _

theorem observed_run_calls {M : Machine W U} {calls : List ToolCall} {views : List CallView} :
    Observed sink (run_calls M calls views : RunM W U E _) (run_calls M calls views) := by
  unfold run_calls
  refine .bind observed_lookup_calls fun found => .bind observed_execute_pending fun executed => ?_
  exact observed_step (fun _ => rfl) fun _ _ => rfl

theorem observed_cache_result {views : List CallView} {rec : ToolExecutionRecord} :
    Observed sink (modifySelf (cache_result views rec) : RunM W U E _)
      (modifySelf (cache_result views rec)) := by
  refine observed_modifySelf (fun self => ?_) fun self => ?_
  · unfold cache_result
    split_ifs
    · split <;> rfl
    · rfl
  · unfold cache_result
    rw [show (self.beside.attach_observer sink.above : Orchestrator W U (E × F)).options
      = self.options from rfl]
    split_ifs
    · split <;> rfl
    · rfl

theorem observed_record_result {M : Machine W U} {chosen_tier : Tier} {views : List CallView}
    {rec : ToolExecutionRecord} :
    Observed sink (record_result M chosen_tier views rec : RunM W U E _)
      (record_result M chosen_tier views rec) := by
  unfold record_result
  refine .bind (observed_modifySelf (fun _ => rfl) fun _ => rfl) fun _ => ?_
  refine .bind observed_record fun _ => .bind ?_ fun _ => ?_
  · cases rec.result.ok <;> exact observed_modifySelf (fun _ => rfl) fun _ => rfl
  · refine .bind observed_cache_result fun _ => .bind (.ofExcept _) fun body => ?_
    exact .bind (observed_step (fun _ => rfl) fun _ _ => rfl) fun _ => .pure _

theorem observed_record_results {M : Machine W U} {chosen_tier : Tier} {views : List CallView} :
    ∀ {records : List ToolExecutionRecord} {turn_ctx : TurnContext} {messages : Messages},
      Observed sink (record_results M chosen_tier views records turn_ctx messages : RunM W U E _)
        (record_results M chosen_tier views records turn_ctx messages)
  | [], _, _ => .pure _
  | _ :: _, _, _ => .bind observed_record_result fun _ => observed_record_results

theorem observed_apply_side_effects {M : Machine W U} :
    Observed sink (apply_side_effects M : RunM W U E _) (apply_side_effects M) := by
  unfold apply_side_effects
  refine .bind (.look fun _ _ => rfl) fun changed => ?_
  split_ifs
  · exact .pure _
  · exact .bind observed_record fun _ => observed_modifySelf (fun _ => rfl) fun _ => rfl

theorem observed_tool_phase {M : Machine W U} {task : Str} {chosen_tier : Tier}
    {calls : List ToolCall} {messages : Messages} :
    Observed sink (tool_phase M task chosen_tier calls messages : RunM W U E _)
      (tool_phase M task chosen_tier calls messages) := by
  unfold tool_phase
  refine .bind (observed_step (fun _ => rfl) fun _ _ => rfl) fun working => ?_
  refine .bind observed_record fun _ => ?_
  refine .bind (observed_step (fun _ => rfl) fun _ _ => rfl) fun views => ?_
  refine .bind observed_run_calls fun records => .bind observed_record_results fun ended => ?_
  refine .bind (observed_step (fun _ => rfl) fun _ _ => rfl) fun messages => ?_
  exact .bind observed_apply_side_effects fun _ => .pure _

theorem observed_turn {M : Machine W U} {task : Str} {budget : Budget} {i : UInt32}
    {result : RunResult} {messages : Messages} :
    Observed sink (turn M task budget i result messages : RunM W U E _)
      (turn M task budget i result messages) := by
  unfold turn
  refine .bind observed_record fun _ => ?_
  refine .bind observed_complete_and_observe fun (chosen_tier, response) => ?_
  cases response with
  | error err => exact .bind observed_record fun _ => .pure _
  | ok resp =>
    refine .bind observed_record fun _ => .bind observed_account fun turn_cost => ?_
    dsimp only
    split
    · exact .bind observed_record fun _ => .pure _
    · split_ifs
      · exact .bind observed_record fun _ => .pure _
      · refine .bind (.ofExcept _) fun calls => .bind observed_record fun _ => ?_
        refine .bind observed_decision_review fun review => ?_
        cases review with
        | ended final_output => exact .pure _
        | run calls => exact .bind observed_tool_phase fun messages => .pure _

theorem observed_finish {result : RunResult} :
    Observed sink (finish result : RunM W U E _) (finish result) := by
  unfold finish
  split_ifs
  · exact .pure _
  · exact .bind observed_record fun _ => .pure _

theorem observed_turns {M : Machine W U} {task : Str} {budget : Budget} :
    ∀ {remaining : ℕ} {i : UInt32} {result : RunResult} {messages : Messages},
      Observed sink (turns M task budget remaining i result messages : RunM W U E _)
        (turns M task budget remaining i result messages)
  | 0, _, _, _ => observed_finish
  | remaining + 1, i, result, messages => by
    unfold turns
    refine .bind observed_turn fun ended => ?_
    cases ended with
    | next result messages => exact observed_turns
    | returned r => exact .pure _
    | broken result => exact observed_finish

variable (sink) in
theorem observed_run (M : Machine W U) (task : Str) (budget : Budget) :
    Observed sink (run M task budget : RunM W U E _) (run M task budget) := by
  unfold run
  exact .bind observed_record fun _ => .bind observed_take_snapshot fun _ => observed_turns

/-- A run and the same run with one more observer, `bare` and `watched` in their ends. Either the
observer takes the events of the run and the two end alike, or the second ends with what the
observer throws, at the event it throws at. -/
def Undisturbed (sink : EventSink F) (s : Sys W U E) (f : F) {α : Type}
    (bare : Except Exn α × Sys W U E) (watched : Except Exn α × Sys W U (E × F)) : Prop :=
  ∃ events, bare.2.self.replay.events = s.self.replay.events ++ events
    ∧ ((∃ f', Replay.feed sink events f = (.ok (), f')
          ∧ watched = (bare.1, bare.2.observed sink f'))
      ∨ ∃ taken e missed f' err, events = taken ++ e :: missed
        ∧ Replay.feed sink taken f = (.ok (), f')
        ∧ sink.on_event e f' = (.error err, watched.2.env.2) ∧ watched.1 = .error err
        ∧ watched.2.self.replay.events = s.self.replay.events ++ taken ++ [e])

theorem run_observed (M : Machine W U) (task : Str) (budget : Budget) (sink : EventSink F)
    (s : Sys W U E) (f : F) (h : s.self.replay.Quiet) :
    Undisturbed sink s f ((run M task budget).exec s)
      ((run M task budget).exec (s.observed sink f)) := by
  obtain ⟨-, events, hlog, hend⟩ := observed_run sink M task budget s f h
  refine ⟨events, hlog, ?_⟩
  obtain ⟨f', hfeed, hexec⟩ | ⟨taken, e, missed, f', err, hevents, hfeed, hsee, herr, hlogged⟩ :=
    hend
  · exact .inl ⟨f', (feed_observer sink events f).symm.trans hfeed, hexec⟩
  · exact .inr ⟨taken, e, missed, f', err, hevents, (feed_observer sink taken f).symm.trans hfeed,
      hsee, herr, hlogged⟩

/-- An observer that counts events and refuses the end of a task. -/
def untilEnd : EventSink ℕ where
  on_event := fun e n =>
    (if e.kind = .TaskEnded then .error (.user "the end") else .ok (), n + 1)

theorem run_observed_untilEnd :
    let s := scriptedStart {} [proposal "list" "", answer "CONFIRM", answer "done"]
    Undisturbed untilEnd s 0 ((run (scriptedMachine (.ofTable [])) "task" {}).exec s)
      ((run (scriptedMachine (.ofTable [])) "task" {}).exec (s.observed untilEnd 0)) :=
  run_observed (scriptedMachine (.ofTable [])) "task" {} untilEnd _ 0 fun _ h => by cases h

end Orchestrator

end Praxis
