import Praxis.FrontEnd
import Praxis.Proofs.Actions
import Praxis.Proofs.Observers

/-!
# What the web panel answers

The panel runs a task as the command line would with the same settings; its sink only looks on. The
answer has the outcome of that run, its counters and one line for each of its events
(`post_run_answers`).
-/

namespace Praxis

open Effect (Prog Blocks Keeps)

variable {W U E H : Type}

/-- The line of an event, if its payload can be written. -/
def eventLine (T : JsonText) (event : Event) : Except Exn Str := do
  let payload ← T.dump event.payload
  pure (ConsoleSink.head event ++ payload ++ "\x7d\n")

theorem on_event_consoleSink {T : JsonText} {event : Event} {stream stream' : Str} :
    (ConsoleSink T).on_event event stream = (.ok (), stream')
      ↔ ∃ line, eventLine T event = .ok line ∧ stream' = stream ++ line := by
  unfold eventLine ConsoleSink
  dsimp only
  rcases T.dump event.payload with e | payload
  · constructor
    · intro h
      cases h
    · rintro ⟨line, h, -⟩
      cases h
  · refine ⟨fun h => ⟨_, rfl, ?_⟩, ?_⟩
    · rw [← (Prod.mk.inj h).2]
      simp only [List.append_assoc]
    · rintro ⟨line, h, rfl⟩
      cases h
      simp only [List.append_assoc]

/-- The sink takes events if all of them have lines, and appends these. -/
theorem feed_consoleSink {T : JsonText} : ∀ {events : List Event} {stream stream' : Str},
    Replay.feed (ConsoleSink T) events stream = (.ok (), stream')
      ↔ ∃ lines, events.mapM (eventLine T) = .ok lines ∧ stream' = stream ++ lines.flatten
  | [], stream, stream' => by
    rw [Replay.feed, List.mapM_nil]
    refine ⟨fun h => ⟨[], rfl, ?_⟩, ?_⟩
    · rw [← (Prod.mk.inj h).2, List.flatten_nil, List.append_nil]
    · rintro ⟨lines, h, rfl⟩
      cases h
      rw [List.flatten_nil, List.append_nil]
  | event :: events, stream, stream' => by
    rw [List.mapM_cons, Replay.feed]
    constructor
    · intro h
      split at h
      · next stream₁ hevent =>
        obtain ⟨line, hline, rfl⟩ := on_event_consoleSink.1 hevent
        obtain ⟨lines, hlines, rfl⟩ := feed_consoleSink.1 h
        refine ⟨line :: lines, by rw [hline, hlines]; rfl, ?_⟩
        rw [List.flatten_cons, List.append_assoc]
      · cases h
    · rintro ⟨all, hall, rfl⟩
      obtain ⟨line, hline, hall⟩ := Effect.except_bind_eq_ok.1 hall
      obtain ⟨lines, hlines, hall⟩ := Effect.except_bind_eq_ok.1 hall
      cases hall
      rw [on_event_consoleSink.2 ⟨line, hline, rfl⟩]
      exact feed_consoleSink.2 ⟨lines, hlines, by rw [List.flatten_cons, List.append_assoc]⟩

namespace Orchestrator

variable {M : Machine W U} {task : Str} {budget : Budget}

/-- The events are numbered from 1 on. -/
structure Sequenced (replay : Replay E) : Prop where
  last : replay.last_seq = UInt64.ofNat replay.events.length
  sequence : ∀ i e, replay.events[i]? = some e → e.sequence = UInt64.ofNat (i + 1)

theorem Sequenced.push {replay : Replay E} (h : Sequenced replay) (kind : EventKind)
    (payload : Json) : Sequenced (replay.push { kind := kind, payload := payload }) where
  last := by
    show replay.last_seq + 1 = UInt64.ofNat (replay.events ++ [_]).length
    rw [h.last, List.length_append]
    exact (UInt64.ofNat_add _ _).symm
  sequence := fun i e he => by
    rw [show (replay.push { kind := kind, payload := payload }).events = replay.events
      ++ [{ kind := kind, sequence := replay.last_seq + 1, payload := payload }] from rfl,
      List.getElem?_append] at he
    split_ifs at he with hi
    · exact h.sequence i e he
    · obtain ⟨hi0, rfl⟩ : i - replay.events.length = 0 ∧ _ := by
        rcases hk : i - replay.events.length with _ | k <;> rw [hk] at he
        · exact ⟨rfl, (Option.some.inj he).symm⟩
        · cases he
      show replay.last_seq + 1 = _
      rw [h.last, show i = replay.events.length by omega]
      exact (UInt64.ofNat_add _ _).symm

theorem Writes.replay_eq {k : Action} {s s' : Sys W U E} (h : Writes k s s') (hk : k ≠ .record) :
    s'.self.replay = s.self.replay := by
  cases h <;> first | rfl | exact absurd rfl hk

theorem sequenced_run (s : Sys W U E) (h : Sequenced s.self.replay) :
    Sequenced ((run M task budget).exec s).2.self.replay := by
  refine keeps_run (R := fun s s' => Sequenced s.self.replay → Sequenced s'.self.replay)
    (fun _ h => h) (fun _ _ _ h h' hs => h' (h hs)) (fun k β y hy s hs => ?_) s h
  rcases eq_or_ne k .record with rfl | hk
  · cases hy with
    | record kind payload => exact hs.push kind _
  · rw [(hy.writes s).replay_eq hk]
    exact hs

end Orchestrator

/-- The request may run a task, with these settings. -/
def Accepts (M : Machine W U) (opts : CliSettings) (req : PostRequest) (settings : CliSettings) :
    Prop :=
  check_auth opts.toCliOptions req.toRequest = true ∧ settings.task ≠ []
    ∧ ∃ fields, M.text.parse req.body = some (.object fields)
      ∧ run_settings opts (.object fields) = .ok settings

variable {M : Machine W U} {http : HttpPost H} {opts settings : CliSettings} {req : PostRequest}
  {wall_ms : ℚ} {world : W} {client : H}

theorem post_run_of_accepts (h : Accepts M opts req settings) :
    post_run M http opts req wall_ms world client
      = match (Orchestrator.run M settings.task (cliBudget settings)).exec
          (panelStart M http settings world client) with
        | (.error e, s) => (.error e, some s)
        | (.ok r, s) =>
          match M.text.dump (run_fields r s.self.telemetry wall_ms s.env.2) with
          | .error e => (.error e, some s)
          | .ok content =>
            (.ok { content := content, content_type := "application/json" }, some s) := by
  obtain ⟨hauth, htask, fields, hparse, hsettings⟩ := h
  have hempty : settings.task.isEmpty = false := by simpa using htask
  unfold post_run
  rw [hauth, hparse, if_neg (by decide)]
  dsimp only
  rw [hsettings]
  dsimp only
  exact if_neg (by rw [hempty]; exact Bool.false_ne_true)

variable (http wall_ms world client) in
/-- A request that is not accepted runs nothing, and is answered with another status. -/
theorem post_run_of_not_accepts (h : ∀ settings, ¬ Accepts M opts req settings) :
    (post_run M http opts req wall_ms world client).2 = none
      ∧ ∀ resp, (post_run M http opts req wall_ms world client).1 = .ok resp →
        resp.status ≠ 200 := by
  unfold post_run
  split_ifs with hauth
  · exact ⟨rfl, fun resp hresp => by cases hresp; decide⟩
  · rw [Bool.not_eq_true, Bool.not_eq_false'] at hauth
    split
    · next fields hparse =>
      rcases hsettings : run_settings opts (.object fields) with e | settings
      · exact ⟨rfl, fun resp hresp => by cases hresp⟩
      · dsimp only
        split_ifs with htask
        · exact ⟨rfl, fun resp hresp => by cases hresp; decide⟩
        · exact absurd ⟨hauth, by simpa using htask, fields, hparse, hsettings⟩ (h settings)
    · exact ⟨rfl, fun resp hresp => by cases hresp; decide⟩

/-- The panel's run is that of the command line, if every event has a line; else it throws. -/
theorem panel_run (M : Machine W U) (http : HttpPost H) (settings : CliSettings) (world : W)
    (client : H) :
    let cli := cliRun M http settings world client
    let panel := (Orchestrator.run M settings.task (cliBudget settings)).exec
      (panelStart M http settings world client)
    (∃ lines, cli.2.self.replay.events.mapM (eventLine M.text) = .ok lines
        ∧ panel = (cli.1, cli.2.observed (ConsoleSink M.text) lines.flatten))
      ∨ (∀ lines, cli.2.self.replay.events.mapM (eventLine M.text) ≠ .ok lines)
        ∧ ∃ e, panel.1 = .error e := by
  dsimp only
  obtain ⟨-, events, hlog, hend⟩ := Orchestrator.observed_run (ConsoleSink M.text) M settings.task
    (cliBudget settings) (cliStart M http settings world client) [] (fun _ h => by cases h)
  obtain rfl : (cliRun M http settings world client).2.self.replay.events = events := hlog
  obtain ⟨text, hfeed, hexec⟩ | ⟨taken, e, missed, text, err, hevents, hfeed, hsee, herr, -⟩ := hend
  · rw [Orchestrator.feed_observer] at hfeed
    obtain ⟨lines, hlines, rfl⟩ := feed_consoleSink.1 hfeed
    exact .inl ⟨lines, hlines, hexec⟩
  · refine .inr ⟨fun lines hlines => ?_, err, herr⟩
    have hall : Replay.feed (ConsoleSink M.text)
        (cliRun M http settings world client).2.self.replay.events [] = (.ok (), [] ++ _) :=
      feed_consoleSink.2 ⟨lines, hlines, rfl⟩
    rw [hevents, ← Orchestrator.feed_observer (W := W) (U := U) (E := FakeProvider × H),
      Effect.Watch.feed_append _ hfeed, Effect.Watch.feed] at hall
    rw [show (Orchestrator.observer (ConsoleSink M.text) :
      Effect.Watch Exn (Sys W U (FakeProvider × H)) _ _ _).see e text = _ from hsee] at hall
    cases hall

/-- The answer to an accepted request, if there is one, is made of the command line's run. -/
theorem post_run_eq_ok_iff (h : Accepts M opts req settings) (resp : Response) :
    (post_run M http opts req wall_ms world client).1 = .ok resp ↔
      ∃ r lines content, (cliRun M http settings world client).1 = .ok r
        ∧ (cliRun M http settings world client).2.self.replay.events.mapM (eventLine M.text)
          = .ok lines
        ∧ M.text.dump (run_fields r (cliRun M http settings world client).2.self.telemetry
          wall_ms lines.flatten) = .ok content
        ∧ resp = { content := content, content_type := "application/json" } := by
  rw [post_run_of_accepts h]
  obtain ⟨lines, hlines, hpanel⟩ | ⟨hnone, e, hpanel⟩ := panel_run M http settings world client
  · rw [hpanel, hlines]
    rcases (cliRun M http settings world client).1 with e | r
    · constructor
      · intro hresp
        cases hresp
      · rintro ⟨r, _, _, hr, -⟩
        cases hr
    · dsimp only
      rw [show ((cliRun M http settings world client).2.observed (ConsoleSink M.text)
        lines.flatten).self.telemetry
        = (cliRun M http settings world client).2.self.telemetry from rfl,
        show ((cliRun M http settings world client).2.observed (ConsoleSink M.text)
          lines.flatten).env.2 = lines.flatten from rfl]
      constructor
      · intro hresp
        rcases hdump : M.text.dump (run_fields r
          (cliRun M http settings world client).2.self.telemetry wall_ms lines.flatten)
          with e | content
        · rw [hdump] at hresp
          cases hresp
        · rw [hdump] at hresp
          exact ⟨r, lines, content, rfl, rfl, hdump, (Except.ok.inj hresp).symm⟩
      · rintro ⟨r', lines', content, hr, hlines', hdump, rfl⟩
        cases hr
        cases hlines'
        rw [hdump]
  · rw [← Prod.mk.eta (p := (Orchestrator.run M settings.task (cliBudget settings)).exec
      (panelStart M http settings world client)), hpanel]
    constructor
    · intro hresp
      cases hresp
    · rintro ⟨r, lines, content, -, hlines, -⟩
      exact absurd hlines (hnone lines)

theorem isSome_post_run (h : Accepts M opts req settings) :
    (post_run M http opts req wall_ms world client).2.isSome := by
  rw [post_run_of_accepts h]
  split
  · rfl
  · split <;> rfl

theorem Accepts.unique {settings' : CliSettings} (h : Accepts M opts req settings)
    (h' : Accepts M opts req settings') : settings' = settings := by
  obtain ⟨-, -, fields, hparse, hsettings⟩ := h
  obtain ⟨-, -, fields', hparse', hsettings'⟩ := h'
  cases hparse'.symm.trans hparse
  exact Except.ok.inj (hsettings'.symm.trans hsettings)

/-- A task is run for a request exactly if the request is accepted. It is answered with 200 exactly
if the command line's run of the task returns, all of its events have lines and the answer can be
written: the answer has the outcome of that run, which the command line prints, its counters and, in
order, the lines of its events, which are numbered from 1 on. -/
theorem post_run_answers (M : Machine W U) (http : HttpPost H) (pretty : Json → Str)
    (opts : CliSettings) (req : PostRequest) (wall_ms : ℚ) (world : W) (client : H) :
    ((post_run M http opts req wall_ms world client).2.isSome
      ↔ ∃ settings, Accepts M opts req settings)
    ∧ ∀ resp, (post_run M http opts req wall_ms world client).1 = .ok resp ∧ resp.status = 200 ↔
      ∃ settings r lines content, Accepts M opts req settings
        ∧ (cliRun M http settings world client).1 = .ok r
        ∧ (run_cli M http pretty settings wall_ms world client).1
          = .ok (consoleOf pretty settings wall_ms
            (cliRun M http settings world client).2.self.telemetry r)
        ∧ (cliRun M http settings world client).2.self.replay.events.mapM (eventLine M.text)
          = .ok lines
        ∧ (∀ i e, (cliRun M http settings world client).2.self.replay.events[i]? = some e →
          e.sequence = UInt64.ofNat (i + 1))
        ∧ M.text.dump (run_fields r (cliRun M http settings world client).2.self.telemetry
          wall_ms lines.flatten) = .ok content
        ∧ resp = { content := content, content_type := "application/json" } := by
  by_cases haccepts : ∃ settings, Accepts M opts req settings
  · obtain ⟨settings, haccepts⟩ := haccepts
    refine ⟨⟨fun _ => ⟨settings, haccepts⟩, fun _ => isSome_post_run haccepts⟩, fun resp => ?_⟩
    have hnumbered : Orchestrator.Sequenced (cliRun M http settings world client).2.self.replay :=
      Orchestrator.sequenced_run _ ⟨rfl, fun i e h => by cases h⟩
    constructor
    · rintro ⟨hresp, -⟩
      obtain ⟨r, lines, content, hr, hlines, hdump, rfl⟩ :=
        (post_run_eq_ok_iff haccepts resp).1 hresp
      exact ⟨settings, r, lines, content, haccepts, hr, by rw [run_cli, hr]; rfl, hlines,
        hnumbered.sequence, hdump, rfl⟩
    · rintro ⟨settings', r, lines, content, haccepts', hr, -, hlines, -, hdump, rfl⟩
      cases haccepts.unique haccepts'
      exact ⟨(post_run_eq_ok_iff haccepts _).2 ⟨r, lines, content, hr, hlines, hdump, rfl⟩, rfl⟩
  · obtain ⟨hrun, hstatus⟩ := post_run_of_not_accepts http wall_ms world client
      (not_exists.1 haccepts)
    rw [hrun]
    refine ⟨iff_of_false Bool.false_ne_true haccepts, fun resp => iff_of_false ?_ ?_⟩
    · exact fun h => hstatus resp h.1 h.2
    · rintro ⟨settings, -, -, -, h, -⟩
      exact haccepts ⟨settings, h⟩

end Praxis
