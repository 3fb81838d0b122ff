import Praxis.Proofs.Execution
import Praxis.Proofs.Extract
import Praxis.Proofs.Spending

/-!
# What makes a run throw

If providers and tools return and no sink throws, an exception comes from one of four places: the
directory walk of the side effect observer, the usage of a response, the tool calls of a response,
and a tool output that is not UTF-8. None of them is guarded, so a run returns exactly if none of
its steps meets what it cannot read (`run_returns_iff`).
-/

namespace Praxis

namespace Orchestrator

open Effect (Prog Blocks Returns Sure returns_of returns_bind_ofExcept returns_ofExcept)

variable {W U E : Type} {M : Machine W U} {task : Str} {budget : Budget}

/-- The providers and the tools return, and no sink throws. -/
structure Tame (s : Sys W U E) : Prop where
  providers : ∀ provider : Provider E, some provider ∈ s.self.retrying.map (·.inner) →
    ∀ messages env, ∃ r, (provider.complete messages env).1 = .ok r
  sinks : s.self.replay.Quiet
  tools : ∀ call, s.self.registry.ReturnsOn call

/-- `value` can read a count here. -/
def countReadable : Option Json → Bool
  | none => true
  | some (.number_unsigned _) | some (.number_integer _) | some (.number_float _)
  | some (.boolean _) => true
  | some _ => false

def usageReadable (raw : Json) : Bool :=
  match raw.field? "usage" with
  | none => true
  | some (.object usage) =>
    countReadable (usage.lookup (lit "prompt_tokens"))
      && countReadable (usage.lookup (lit "completion_tokens"))
  | some _ => false

def nameReadable : Option Json → Bool
  | none => true
  | some (.string _) => true
  | some _ => false

/-- Only objects and arrays are written as JSON text. -/
def argumentsReadable (T : JsonText) : Json → Bool
  | .object fields => (T.dump (.object fields)).isOk
  | .array elems => (T.dump (.array elems)).isOk
  | _ => true

def entryReadable (T : JsonText) : Json → Bool
  | .object fields => nameReadable (fields.lookup (lit "name"))
    && argumentsReadable T ((fields.lookup (lit "arguments")).getD (.object []))
  | _ => false

def callsReadable (T : JsonText) (raw : Json) : Bool :=
  match raw.field? "tool_calls" with
  | some (.array entries) => entries.all (entryReadable T)
  | _ => true

def outputReadable (T : JsonText) (output : Json) : Bool :=
  output == .null || (T.dump output).isOk

/-- The count that `value` reads. -/
def readCount (usage : Json) (key : Str) : UInt32 :=
  match usage.value Json.getUInt32 key 0 with
  | .ok n => n
  | .error _ => 0

def turnCost (pricing : PricingConfig) (raw : Json) : ℚ :=
  match raw.field? "usage" with
  | none => 0
  | some usage => price pricing
      ((readCount usage "prompt_tokens").toNat, (readCount usage "completion_tokens").toNat)

/-- The side effect observer is off, or can walk its directory. -/
def walkable (M : Machine W U) (s : Sys W U E) : Bool :=
  s.self.options.side_effect_root.isEmpty
    || (SideEffectObserver.walk M.platform s.world s.self.options.side_effect_root).isOk

/-- What is read from here to the next point can be read. -/
def readable (M : Machine W U) (budget : Budget) (c : Config W U E) : Bool :=
  match c.1 with
  | .ok .start | .ok (.observing _) => walkable M c.2
  | .ok (.answered l _ (.ok resp)) => usageReadable resp.raw
    && ((budget_exhausted budget
        (l.result.cost + turnCost c.2.self.options.pricing resp.raw)).isSome
      || !resp.outcome.has_tool_use || callsReadable M.text resp.raw)
  | .ok (.called _ _ _ records) => records.all fun r => outputReadable M.text r.result.output
  | _ => true

theorem value_getUInt32_isOk {fields : List (Str × Json)} {key : Str} :
    ((Json.object fields).value Json.getUInt32 key 0).isOk = countReadable (fields.lookup key) := by
  unfold Json.value
  dsimp only
  rcases fields.lookup key with _ | j
  · rfl
  · cases j <;> rfl

theorem canonicalize_arguments_isOk {T : JsonText} (j : Json) :
    (canonicalize_arguments T j).isOk = argumentsReadable T j := by
  cases j <;> rfl

theorem resultBody_isOk {T : JsonText} {rec : ToolExecutionRecord} :
    (resultBody T rec).isOk = outputReadable T rec.result.output := by
  unfold resultBody outputReadable
  split_ifs with h
  · rw [h]
    rfl
  · simp [h]

theorem isOk_iff {α : Type} {x : Except Exn α} : x.isOk ↔ ∃ a, x = .ok a := by
  cases x <;> simp [Except.isOk, Except.toBool]

theorem value_name_isOk {fields : List (Str × Json)} :
    ((Json.object fields).value Json.getString "name" []).isOk
      = nameReadable (fields.lookup (lit "name")) := by
  unfold Json.value
  dsimp only
  rcases fields.lookup (lit "name") with _ | j
  · rfl
  · cases j <;> rfl

theorem extractFrom_isOk {T : JsonText} :
    ∀ {entries : List Json} {k : ℕ},
      (extractFrom T k entries).isOk = entries.all (entryReadable T)
  | [], k => rfl
  | tc :: entries, k => by
    have ih : (extractFrom T (k + 1) entries).isOk = entries.all (entryReadable T) :=
      extractFrom_isOk
    rw [List.all_cons, ← ih, Bool.eq_iff_iff, isOk_iff, Bool.and_eq_true]
    simp only [extractFrom_cons_eq_ok]
    cases tc with
    | object fields =>
      rw [entryReadable, ← value_name_isOk, ← canonicalize_arguments_isOk, Bool.and_eq_true,
        isOk_iff, isOk_iff, isOk_iff]
      simp only [value_arguments]
      constructor
      · rintro ⟨_, name, args_raw, text, rest, hname, hargs, htext, hrest, -⟩
        obtain rfl := Except.ok.inj hargs
        exact ⟨⟨⟨name, hname⟩, text, htext⟩, rest, hrest⟩
      · rintro ⟨⟨⟨name, hname⟩, text, htext⟩, rest, hrest⟩
        exact ⟨_, name, _, text, rest, hname, rfl, htext, hrest, rfl⟩
    | _ =>
      simp [entryReadable, Json.value]

theorem extract_tool_calls_isOk {T : JsonText} (raw : Json) :
    (extract_tool_calls T raw).isOk = callsReadable T raw := by
  unfold extract_tool_calls callsReadable
  rcases raw.field? "tool_calls" with _ | j
  · rfl
  · cases j with
    | array entries => exact extractFrom_isOk
    | _ => rfl

theorem readCount_eq {usage : Json} {key : Str} {n : UInt32}
    (h : usage.value Json.getUInt32 key 0 = .ok n) : readCount usage key = n := by
  rw [readCount, h]

/-- `account` returns exactly if it can read the usage, and then what the usage costs. -/
theorem account_eq_ok {raw : Json} {s s' : Sys W U E} {cost : ℚ}
    (h : (account raw).exec s = (.ok cost, s')) :
    usageReadable raw ∧ cost = turnCost s.self.options.pricing raw := by
  unfold account at h
  unfold usageReadable turnCost
  rcases hraw : raw.field? "usage" with _ | usage
  · rw [hraw] at h
    cases h
    exact ⟨rfl, rfl⟩
  · rw [hraw] at h
    obtain ⟨prompt, s₁, h₁, h⟩ := Prog.exec_bind_eq_ok.1 h
    obtain ⟨completion, s₂, h₂, h⟩ := Prog.exec_bind_eq_ok.1 h
    have hprompt : usage.value Json.getUInt32 "prompt_tokens" 0 = .ok prompt := congrArg Prod.fst h₁
    have hcompletion : usage.value Json.getUInt32 "completion_tokens" 0 = .ok completion :=
      congrArg Prod.fst h₂
    obtain rfl : s = s₁ := congrArg Prod.snd h₁
    obtain rfl : s = s₂ := congrArg Prod.snd h₂
    cases h
    constructor
    · cases usage with
      | object usage =>
        dsimp only
        rw [← value_getUInt32_isOk, ← value_getUInt32_isOk, hprompt, hcompletion]
        rfl
      | _ => cases hprompt
    · dsimp only
      rw [readCount_eq hprompt, readCount_eq hcompletion]
      rfl

theorem returns_account {raw : Json} {s : Sys W U E} :
    Returns (account raw) s ↔ usageReadable raw := by
  refine ⟨fun ⟨cost, s', h⟩ => (account_eq_ok h).1, fun h => ?_⟩
  unfold usageReadable at h
  unfold account
  rcases hraw : raw.field? "usage" with _ | usage
  · exact ⟨_, _, rfl⟩
  · rw [hraw] at h
    cases usage with
    | object usage =>
      dsimp only at h
      rw [← value_getUInt32_isOk, ← value_getUInt32_isOk, Bool.and_eq_true, isOk_iff, isOk_iff] at h
      obtain ⟨⟨prompt, hprompt⟩, completion, hcompletion⟩ := h
      refine (returns_bind_ofExcept hprompt).2 ((returns_bind_ofExcept hcompletion).2 ?_)
      exact ⟨_, _, rfl⟩
    | _ => cases h

def tamed (c : Core W U E) :
    List (Option (Provider E)) × List (EventSink E) × ToolRegistry W U :=
  (c.inners, c.sinks, c.registry)

theorem Tame.of_tamed {s s' : Sys W U E} (hs : Tame s) (h : tamed (core s') = tamed (core s)) :
    Tame s' := by
  have hinners : s'.self.retrying.map (·.inner) = s.self.retrying.map (·.inner) :=
    congrArg Prod.fst h
  have hsinks : s'.self.replay.sinks = s.self.replay.sinks := congrArg (fun t => t.2.1) h
  have hregistry : s'.self.registry = s.self.registry := congrArg (fun t => t.2.2) h
  constructor
  · intro provider hprovider
    exact hs.providers provider (hinners ▸ hprovider)
  · intro sink hsink
    exact hs.sinks sink (hsinks ▸ hsink)
  · intro call
    rw [hregistry]
    exact hs.tools call

theorem Tame.exec {α : Type} {x : RunM W U E α} (hx : Steady tamed x) {s s' : Sys W U E}
    {r : Except Exn α} (hs : Tame s) (h : x.exec s = (r, s')) : Tame s' :=
  hs.of_tamed (hx.exec h)

section Sure

variable {α β : Type}

/-- A program that leaves tame states tame, and returns from them. -/
theorem sure_of_steady {x : RunM W U E α} (hx : Steady tamed x) (h : ∀ s, Tame s → Returns x s) :
    Sure Tame x := fun s hs => by
  obtain ⟨a, s', hexec⟩ := h s hs
  exact ⟨a, s', hexec, hs.exec hx hexec⟩

theorem sure_record (kind : EventKind) (payload : List (Str × Json)) :
    Sure Tame (record kind payload : RunM W U E Unit) :=
  sure_of_steady (Still.steady still_record) fun s hs =>
    returns_of.2 (isOk_iff.2 ⟨(), Replay.record_ok hs.sinks _ s.env⟩)

theorem sure_modifySelf {f : Orchestrator W U E → Orchestrator W U E}
    (h : ∀ s : Sys W U E, tamed (core { s with self := f s.self }) = tamed (core s)) :
    Sure Tame (modifySelf f : RunM W U E Unit) := Sure.step fun s hs => hs.of_tamed (h s)

theorem sure_step {f : Sys W U E → α × Sys W U E} (h : ∀ s, tamed (core (f s).2) = tamed (core s)) :
    Sure Tame (Prog.step f : RunM W U E α) := Sure.step fun s hs => hs.of_tamed (h s)

theorem completeLoop_returns {inner : Provider E} {context : Messages}
    (hinner : ∀ env, ∃ r, (inner.complete context env).1 = .ok r) :
    ∀ (attempts : ℕ) (backoff : ℤ) (last : Result ModelResponse) (self : RetryingProvider E)
      (env : E), ∃ r,
      (RetryingProvider.completeLoop inner context attempts backoff last self env).1 = .ok r
  | 0, _, last, _, _ => ⟨last, rfl⟩
  | attempts + 1, backoff, last, self, env => by
    obtain ⟨r, hr⟩ := hinner env
    unfold RetryingProvider.completeLoop
    rcases hcomplete : inner.complete context env with ⟨e | response, env'⟩
    · rw [hcomplete] at hr
      cases hr
    · cases response with
      | ok response => exact ⟨_, rfl⟩
      | error err =>
        dsimp only
        split_ifs
        · exact ⟨_, rfl⟩
        · exact completeLoop_returns hinner attempts _ _ _ _

theorem sure_complete_for {role : Role} {messages : Messages} :
    Sure Tame (complete_for role messages : RunM W U E _) :=
  sure_of_steady (Still.steady still_complete_for) fun s hs => by
    unfold complete_for
    rcases hfind : s.self.for_tier (s.self.cascade.route_for role) with _ | ⟨i, provider⟩
    · refine returns_of.2 ?_
      dsimp only
      rw [hfind]
      rfl
    · have hreturns : ∃ r, (provider.complete messages s.env).1 = .ok r := by
        unfold RetryingProvider.complete
        rcases hinner : provider.inner with _ | inner
        · exact ⟨_, rfl⟩
        · refine completeLoop_returns (fun env => hs.providers inner ?_ messages env) _ _ _ _ _
          exact hinner ▸ List.mem_map_of_mem (List.mem_of_getElem? (getElem?_of_for_tier hfind))
      obtain ⟨r, hr⟩ := hreturns
      refine returns_of.2 ?_
      dsimp only
      rw [hfind]
      exact isOk_iff.2 ⟨r, hr⟩

theorem sure_complete_and_observe {role : Role} {messages : Messages} :
    Sure Tame (complete_and_observe role messages : RunM W U E _) :=
  .bind (sure_step fun _ => rfl) fun _ => .bind sure_complete_for fun _ =>
    .bind (sure_modifySelf fun _ => rfl) fun _ => .pure _

theorem sure_lookup_calls :
    ∀ {calls : List (ToolCall × CallView)} {i : ℕ}, Sure Tame (lookup_calls i calls : RunM W U E _)
  | [], _ => .pure _
  | (call, view) :: calls, i => by
    unfold lookup_calls
    refine .bind ?_ fun cached => .bind sure_lookup_calls fun found => ?_
    · unfold lookup_call
      refine .bind (sure_step fun _ => rfl) fun cached => .bind (sure_modifySelf fun _ => rfl)
        fun _ => ?_
      cases cached with
      | none => exact .pure _
      | some output => exact .bind (sure_record _ _) fun _ => .pure _
    · cases cached <;> exact .pure _

theorem sure_run_calls {calls : List ToolCall} {views : List CallView} :
    Sure Tame (run_calls M calls views : RunM W U E _) := by
  unfold run_calls
  refine .bind sure_lookup_calls fun found => .bind ?_ fun executed => sure_step fun _ => rfl
  unfold execute_pending
  split_ifs
  · exact .pure _
  · refine sure_of_steady (Still.steady (still_of fun _ => rfl)) fun s hs => ?_
    obtain ⟨records, ex', w', hexec, -⟩ := ToolExecutor.execute_returns M.scheduler M.platform
      s.self.registry found.1 s.self.tool_ctx (fun call _ => hs.tools call) s.self.executor s.world
    exact returns_of.2 (isOk_iff.2 ⟨records, congrArg Prod.fst hexec⟩)

end Sure

theorem snapshot_isOk (w : W) (root : Str) :
    (SideEffectObserver.snapshot M.platform w root).isOk
      = (SideEffectObserver.walk M.platform w root).isOk := by
  unfold SideEffectObserver.snapshot
  cases SideEffectObserver.walk M.platform w root <;> rfl

theorem diff_isOk (observer : SideEffectObserver) (w : W) (root : Str) :
    (observer.diff M.platform w root).isOk = (SideEffectObserver.walk M.platform w root).isOk := by
  unfold SideEffectObserver.diff
  cases SideEffectObserver.walk M.platform w root <;> rfl

theorem returns_take_snapshot {s : Sys W U E} : Returns (take_snapshot M) s ↔ walkable M s := by
  refine returns_of.trans ?_
  unfold walkable
  rw [← snapshot_isOk]
  dsimp only
  split_ifs with h
  · simp [h, Except.isOk, Except.toBool]
  · rcases SideEffectObserver.snapshot M.platform s.world s.self.options.side_effect_root with e | o
    · simp [h, Except.isOk, Except.toBool]
    · simp [Except.isOk, Except.toBool]

theorem returns_apply_side_effects {s : Sys W U E} (hs : Tame s) :
    Returns (apply_side_effects M) s ↔ walkable M s := by
  unfold apply_side_effects
  refine (Sure.bind_iff (I := Tame) (fun changed s' h => ?_) fun changed => ?_).trans ?_
  · exact hs.exec (Still.steady (still_of fun _ => rfl)) h
  · split_ifs
    · exact .pure _
    · exact .bind (sure_record _ _) fun _ => sure_modifySelf fun _ => rfl
  · refine returns_of.trans ?_
    unfold walkable
    dsimp only
    split_ifs with h
    · simp [h, Except.isOk, Except.toBool, pure, Except.pure]
    · rw [diff_isOk]
      simp [h]

theorem returns_record_result {chosen_tier : Tier} {views : List CallView}
    {rec : ToolExecutionRecord} {s : Sys W U E} (hs : Tame s) :
    Returns (record_result M chosen_tier views rec) s
      ↔ outputReadable M.text rec.result.output := by
  unfold record_result
  obtain ⟨_, s₁, h₁, hs₁⟩ := sure_modifySelf (f := fun self =>
    { self with telemetry := self.telemetry.record_tool_call rec.result.ok }) (fun _ => rfl) s hs
  obtain ⟨_, s₂, h₂, hs₂⟩ := sure_record .ToolFinished
    [("tool", .string rec.tool_name), ("ok", .boolean rec.result.ok)] s₁ hs₁
  obtain ⟨_, s₃, h₃, hs₃⟩ := sure_modifySelf
    (f := fun self => if rec.result.ok then self else record_failure chosen_tier self)
    (fun s => by cases rec.result.ok <;> rfl) s₂ hs₂
  obtain ⟨_, s₄, h₄, hs₄⟩ := sure_modifySelf (f := cache_result views rec)
    (fun s => congrArg tamed (still_cache_result s)) s₃ hs₃
  rw [Effect.returns_bind h₁, Effect.returns_bind h₂, Effect.returns_bind h₃,
    Effect.returns_bind h₄, ← resultBody_isOk, ← returns_ofExcept (s := s₄)]
  refine Sure.bind_iff (I := Tame) (fun body s' h => ?_) fun body => ?_
  · exact hs₄.exec (Still.steady still_ofExcept) h
  · exact .bind (sure_step fun _ => rfl) fun fact_id => .pure _

theorem returns_record_results {chosen_tier : Tier} {views : List CallView} :
    ∀ {records : List ToolExecutionRecord} {turn_ctx : TurnContext} {messages : Messages}
      {s : Sys W U E}, Tame s →
      (Returns (record_results M chosen_tier views records turn_ctx messages) s
        ↔ records.all fun r => outputReadable M.text r.result.output)
  | [], _, _, s, _ => iff_of_true ⟨_, _, rfl⟩ rfl
  | rec :: records, turn_ctx, messages, s, hs => by
    unfold record_results
    have hfirst : Returns (record_result M chosen_tier views rec) s
        ↔ outputReadable M.text rec.result.output := returns_record_result hs
    rw [List.all_cons, Bool.and_eq_true, ← hfirst]
    constructor
    · rintro ⟨b, s'', h⟩
      obtain ⟨⟨fact_id, message⟩, s₁, hrec, hrest⟩ := Prog.exec_bind_eq_ok.1 h
      have hs₁ := hs.exec (steady_record_result (fun _ _ => rfl) fun _ _ => rfl) hrec
      exact ⟨⟨_, s₁, hrec⟩, (returns_record_results hs₁).1 ⟨b, s'', hrest⟩⟩
    · rintro ⟨⟨⟨fact_id, message⟩, s₁, hrec⟩, hrest⟩
      have hs₁ := hs.exec (steady_record_result (fun _ _ => rfl) fun _ _ => rfl) hrec
      exact (Effect.returns_bind hrec).2 ((returns_record_results hs₁).2 hrest)

theorem returns_answered {l : Loop} {chosen_tier : Tier} {resp : ModelResponse} {s : Sys W U E}
    (hs : Tame s) :
    Returns ((Point.answered l chosen_tier (.ok resp)).block M task budget) s
      ↔ readable M budget (.ok (.answered l chosen_tier (.ok resp)), s) := by
  unfold Point.block readable
  dsimp only
  obtain ⟨_, s₁, h₁, hs₁⟩ := sure_record .ModelResponded
    [("plan", .string (trim_for_log resp.outcome.plan))] s hs
  have hpricing : s₁.self.options = s.self.options :=
    (Still.steady (f := Core.options) still_record).exec h₁
  rw [Effect.returns_bind h₁, ← hpricing, Bool.and_eq_true]
  by_cases husage : usageReadable resp.raw
  · obtain ⟨cost, s₂, h₂⟩ := returns_account (s := s₁).2 husage
    obtain rfl := (account_eq_ok h₂).2
    have hs₂ := hs₁.exec (steady_account (fun _ _ _ => rfl)) h₂
    rw [Effect.returns_bind h₂, and_iff_right husage]
    rcases budget_exhausted budget (l.result.cost + turnCost s₁.self.options.pricing resp.raw) with
      _ | reason
    · split_ifs with htool
      · exact iff_of_true ((Sure.bind (sure_record _ _) fun _ => .pure _).returns hs₂)
          (by simp [htool])
      · refine (Sure.bind_iff (I := Tame) (fun calls s' h => ?_) fun calls => ?_).trans ?_
        · exact hs₂.exec (Still.steady still_ofExcept) h
        · exact .bind (sure_record _ _) fun _ => .pure _
        · rw [returns_ofExcept, extract_tool_calls_isOk]
          simp [htool]
    · exact iff_of_true ((Sure.bind (sure_record _ _) fun _ => .pure _).returns hs₂) (by simp)
  · refine iff_of_false (fun h => ?_) fun h => husage h.1
    obtain ⟨b, s', h⟩ := h
    obtain ⟨cost, s₂, h₂, -⟩ := Prog.exec_bind_eq_ok.1 h
    exact husage (returns_account.1 ⟨cost, s₂, h₂⟩)

/-- A block returns exactly if it can read what it meets. -/
theorem returns_block {p : Point} (hp : p.final = false) {s : Sys W U E} (hs : Tame s) :
    Returns (p.block M task budget) s ↔ readable M budget (.ok p, s) := by
  cases p with
  | start =>
    obtain ⟨_, s₁, h₁, hs₁⟩ := sure_record .TurnStarted [("task", .string task)] s hs
    have hworld : s₁.world = s.world := (congrArg (fun c => c.2.world) h₁).symm
    have hoptions : s₁.self.options = s.self.options :=
      (Still.steady (f := Core.options) still_record).exec h₁
    have hwalkable : walkable M s₁ = walkable M s := by
      unfold walkable
      rw [hworld, hoptions]
    unfold Point.block readable
    dsimp only
    rw [Effect.returns_bind h₁, ← hwalkable, ← returns_take_snapshot]
    refine Sure.bind_iff (I := Tame) (fun _ s' h => ?_) fun _ => .pure _
    exact hs₁.exec (Still.steady still_take_snapshot) h
  | head l =>
    refine iff_of_true ?_ rfl
    unfold Point.block
    dsimp only
    split
    · exact ⟨_, _, rfl⟩
    · exact (Sure.bind (sure_record _ _) fun _ => .pure _).returns hs
  | asking l =>
    exact iff_of_true ((Sure.bind sure_complete_and_observe fun _ => .pure _).returns hs) rfl
  | answered l chosen_tier response =>
    cases response with
    | error err => exact iff_of_true ((Sure.bind (sure_record _ _) fun _ => .pure _).returns hs) rfl
    | ok resp => exact returns_answered hs
  | reviewing l chosen_tier plan calls =>
    exact iff_of_true ((Sure.bind sure_complete_and_observe fun _ => .pure _).returns hs) rfl
  | reviewed l chosen_tier calls decision_tier response =>
    refine iff_of_true ?_ rfl
    cases response with
    | error err =>
      exact (Sure.bind (sure_modifySelf fun _ => rfl) fun _ => .pure _).returns hs
    | ok resp =>
      refine Sure.returns ?_ hs
      unfold Point.block
      dsimp only
      split
      · exact .pure _
      · refine .bind (sure_record _ _) fun _ => .bind (sure_modifySelf fun _ => rfl) fun _ => ?_
        split_ifs
        · exact .bind (sure_record _ _) fun _ => .pure _
        · exact .pure _
  | calling l chosen_tier calls =>
    refine iff_of_true (Sure.returns ?_ hs) rfl
    exact .bind (sure_step fun _ => rfl) fun _ => .bind (sure_record _ _) fun _ =>
      .bind (sure_step fun _ => rfl) fun _ => .bind sure_run_calls fun _ => .pure _
  | called l chosen_tier views records =>
    unfold Point.block readable
    dsimp only
    refine (Sure.bind_iff (I := Tame) (fun a s' h => ?_) fun a => ?_).trans
      (returns_record_results hs)
    · exact hs.exec (steady_record_results (fun _ _ => rfl) fun _ _ => rfl) h
    · exact .bind (sure_step fun _ => rfl) fun _ => .pure _
  | observing l =>
    refine (Sure.bind_iff (I := Tame) (fun a s' h => ?_) fun a => .pure _).trans
      (returns_apply_side_effects hs)
    exact hs.exec (Still.steady still_apply_side_effects) h
  | leaving result =>
    refine iff_of_true (Sure.returns (.bind ?_ fun _ => .pure _) hs) rfl
    unfold finish
    split_ifs
    · exact .pure _
    · exact .bind (sure_record _ _) fun _ => .pure _
  | ended r => cases hp

/-- A run returns exactly if each of its steps can read what it meets. -/
theorem run_returns_iff {s : Sys W U E} (hs : Tame s) :
    (∃ r s', (run M task budget).exec s = (.ok r, s'))
      ↔ ∀ m ∈ moves M task budget s, readable M budget m.1 := by
  have hreturns : (∃ r s', (run M task budget).exec s = (.ok r, s'))
      ↔ ((control M task budget).outcome (.ok .start, s)).1.isOk := by
    rw [outcome_start]
    rcases (run M task budget).exec s with ⟨e | r, s'⟩ <;> simp [Except.isOk, Except.toBool]
  rw [hreturns, Blocks.outcome_isOk_iff _ rfl]
  refine forall₂_congr fun m hm => ?_
  have htame : Tame m.1.2 := by
    refine (Blocks.mem_moves (control M task budget) (I := fun c => Tame c.2) (fun c c' hc h => ?_)
      hs m hm).1
    obtain ⟨_ | p, s₁⟩ := c
    · cases h
    · exact hc.exec (steady_block (fun _ _ => rfl) (fun _ _ _ => rfl) (fun _ _ => rfl) p)
        (exec_of_advance h).2
  have hadvance := Blocks.advance_of_mem _ hm
  obtain ⟨⟨_ | p, s₁⟩, c⟩ := m
  · cases hadvance
  · obtain ⟨hfinal, hexec⟩ := exec_of_advance hadvance
    rw [← returns_block hfinal htame, Returns, hexec]
    obtain ⟨_ | q, s₂⟩ := c <;> simp [Except.isOk, Except.toBool]

theorem tame_scriptedStart (options : OrchestratorOptions) (script : List ModelResponse) :
    Tame (scriptedStart options script) where
  providers := fun provider hprovider messages env => by
    obtain rfl := Option.some.inj (List.mem_singleton.1 hprovider)
    cases env with
    | nil => exact ⟨_, rfl⟩
    | cons response script => exact ⟨_, rfl⟩
  sinks := fun sink hsink => absurd hsink List.not_mem_nil
  tools := fun call tool htool => nomatch htool

theorem run_returns_proposal :
    ∃ r s', (run (scriptedMachine (.ofTable [])) "task" {}).exec
      (scriptedStart {} [withUsage (proposal "list" "") 1 1, answer "CONFIRM", answer "done"])
        = (.ok r, s') :=
  (run_returns_iff (tame_scriptedStart _ _)).2 (by decide +kernel)

def nullUsage : ModelResponse where
  outcome := { plan := "done" }
  raw := .ofFields [("usage", .null)]

/-- Reading the usage throws, and nothing catches the exception. -/
theorem null_usage_escapes :
    Tame (scriptedStart {} [nullUsage])
      ∧ ((run (scriptedMachine (.ofTable [])) "task" {}).exec (scriptedStart {} [nullUsage])).1
        = .error (.type_error 306) :=
  ⟨tame_scriptedStart _ _, by decide +kernel⟩

end Orchestrator

end Praxis
