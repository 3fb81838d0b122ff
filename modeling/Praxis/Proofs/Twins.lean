import Praxis.Proofs.FileHistory

/-!
# Two runs side by side

A run that uses the cache and one that does not, on the same script and the same files. Between any
two steps they agree on all that the provider, the files and the result depend on, and the messages
differ only in what they say of the cache. This module takes them through every part of a turn but
the calls themselves.
-/

namespace Praxis

open Effect (Prog Sim Same except_bind_eq_ok)
open Interleave (Scheduler)

variable {E : Type}

/-- The messages have the same roles and contents. -/
def SameText (ms ms' : Messages) : Prop :=
  ms.map (fun m => (m.role, m.content)) = ms'.map fun m => (m.role, m.content)

theorem SameText.append {ms ms' ns ns' : Messages} (h : SameText ms ms') (h' : SameText ns ns') :
    SameText (ms ++ ns) (ms' ++ ns') := by
  unfold SameText at *
  rw [List.map_append, List.map_append, h, h']

/-- The calls of a response are a batch of file calls. -/
def ProposesFiles (T : JsonText) (raw : Json) : Prop :=
  ∀ calls, extract_tool_calls T raw = .ok calls → FileBatch T calls

instance (T : JsonText) (raw : Json) : Decidable (ProposesFiles T raw) :=
  match h : extract_tool_calls T raw with
  | .ok calls => decidable_of_iff (FileBatch T calls) ⟨fun hb _ hc => by
      obtain rfl := Except.ok.inj (h.symm.trans hc)
      exact hb, fun hp => hp calls h⟩
  | .error e => isTrue fun calls hc => by
      rw [h] at hc
      cases hc

/-- A provider that goes by the texts of the messages and by what `view` shows of its environment
and, as long as that satisfies `I`, proposes batches of file calls. -/
structure Scripted {V : Type} (T : JsonText) (view : E → V) (I : V → Prop) (p : Provider E) :
    Prop where
  blind : ∀ {ms ms' env env'}, SameText ms ms' → view env = view env' →
    (p.complete ms env).1 = (p.complete ms' env').1
      ∧ view (p.complete ms env).2 = view (p.complete ms' env').2
  keeps : ∀ ms {env}, I (view env) → I (view (p.complete ms env).2)
  proposes : ∀ {ms env resp}, I (view env) → (p.complete ms env).1 = .ok (.ok resp) →
    ProposesFiles T resp.raw

def Proposes (T : JsonText) : Except Exn (Result ModelResponse) → Prop
  | .ok (.ok resp) => ProposesFiles T resp.raw
  | _ => True

namespace RetryingProvider

variable {V : Type} {T : JsonText} {view : E → V} {I : V → Prop} {inner : Provider E}
  {ms ms' : Messages}

/-- Two completions by the same loop that cannot be told apart, and keep to the script. -/
structure CompletedAlike (T : JsonText) (view : E → V) (I : V → Prop) (rp : RetryingProvider E)
    (a b : Except Exn (Result ModelResponse) × RetryingProvider E × E) : Prop where
  result : a.1 = b.1
  retrying : a.2.1 = b.2.1
  env : view a.2.2 = view b.2.2
  script : I (view a.2.2)
  inner : a.2.1.inner = rp.inner
  proposes : Proposes T a.1

theorem completeLoop_scripted (h : Scripted T view I inner) (hms : SameText ms ms') :
    ∀ (attempts : ℕ) (backoff : ℤ) (last : Result ModelResponse) (self : RetryingProvider E)
      {env env' : E}, view env = view env' → I (view env) → Proposes T (.ok last) →
      CompletedAlike T view I self (completeLoop inner ms attempts backoff last self env)
        (completeLoop inner ms' attempts backoff last self env')
  | 0, backoff, last, self, env, env', henv, hI, hlast => ⟨rfl, rfl, henv, hI, rfl, hlast⟩
  | attempts + 1, backoff, last, self, env, env', henv, hI, _ => by
    obtain ⟨hresult, hview⟩ := h.blind hms henv
    have hkeep := h.keeps ms hI
    have hproposes : ∀ resp, (inner.complete ms env).1 = .ok (.ok resp) →
        ProposesFiles T resp.raw := fun _ => h.proposes hI
    unfold completeLoop
    revert hresult hview hkeep hproposes
    rcases inner.complete ms env with ⟨r, env₁⟩
    rcases inner.complete ms' env' with ⟨r', env₁'⟩
    rintro (rfl : r = r') hview hkeep hproposes
    rcases r with e | err | resp
    · exact ⟨rfl, rfl, hview, hkeep, rfl, trivial⟩
    · dsimp only
      split_ifs
      · exact ⟨rfl, rfl, hview, hkeep, rfl, trivial⟩
      · have hrest := completeLoop_scripted h hms attempts (nextBackoff self.policy backoff)
          (.error err) (self.countAttempt.backOff backoff) hview hkeep trivial
        exact { hrest with }
    · exact ⟨rfl, rfl, hview, hkeep, rfl, hproposes resp rfl⟩

theorem complete_scripted {self : RetryingProvider E}
    (h : ∀ p, self.inner = some p → Scripted T view I p) (hms : SameText ms ms') {env env' : E}
    (henv : view env = view env') (hI : I (view env)) :
    CompletedAlike T view I self (self.complete ms env) (self.complete ms' env') := by
  unfold complete
  cases hp : self.inner with
  | none => exact ⟨rfl, rfl, henv, hI, rfl, trivial⟩
  | some inner =>
    exact completeLoop_scripted (h inner hp) hms self.policy.max_attempts.toNat
      self.policy.initial_backoff
      (.error { kind := .Internal, message := "default-constructed Result" })
      self henv hI trivial

end RetryingProvider

namespace FakeProvider

theorem is_decision_review_eq (ms : Messages) :
    is_decision_review ms
      = (ms.map fun m : Message => (m.role, m.content)).getLast?.elim false fun (role, content) =>
        role == lit "user" && starts_with "Decision review:" content := by
  unfold is_decision_review
  rw [List.getLast?_map]
  cases ms.getLast? <;> rfl

theorem readStep_raw {step : Json} {resp : ModelResponse} (h : readStep step = .ok (.ok resp)) :
    resp.raw = step := by
  unfold readStep at h
  obtain ⟨plan, -, h⟩ := except_bind_eq_ok.1 h
  obtain ⟨tool_calls, -, h⟩ := except_bind_eq_ok.1 h
  cases h
  rfl

/-- The fake provider goes by its script. -/
theorem scripted (T : JsonText) :
    Scripted T id (fun self => ∀ step ∈ self.steps, ProposesFiles T step) provider where
  blind := fun {ms ms' env env'} h henv => by
    obtain rfl : env = env' := henv
    have hlength : ms.length = ms'.length := by simpa using congrArg List.length h
    have hreview : is_decision_review ms = is_decision_review ms' := by
      rw [is_decision_review_eq, is_decision_review_eq, h]
    simp only [provider, complete, hlength, hreview, and_self]
  keeps := fun ms env hI => by
    simp only [provider, complete]
    split_ifs
    · exact hI
    · cases hsteps : env.steps with
      | nil => simp
      | cons step steps => exact fun s hs => hI s (hsteps ▸ List.mem_cons_of_mem step hs)
  proposes := fun {ms env resp} hI hresp => by
    simp only [provider, complete] at hresp
    split_ifs at hresp
    · cases hresp
      intro calls hcalls
      obtain rfl : [] = calls := Except.ok.inj hcalls
      exact .nil
    · cases hsteps : env.steps with
      | nil =>
        rw [hsteps] at hresp
        cases hresp
      | cons step steps =>
        rw [hsteps] at hresp
        rw [readStep_raw hresp]
        exact hI step (hsteps ▸ List.mem_cons_self)

end FakeProvider

/-- A flat file system with the built-in tools, which read through a `BasicContext`, and a script
that the environment carries in what `view` shows of it. -/
structure FileSetup (E : Type) where
  text : JsonText
  below : FlatFs → Str → List Str
  scheduler : Scheduler ℕ FlatFs (Except Exn ToolExecutionRecord)
  base : ToolRegistry FlatFs Empty
  tools_ctx : Option (Ctx Empty)
  basic : tools_ctx.getD .basic = .basic
  ctx : Option (Ctx Empty)
  files : FlatFs
  View : Type
  view : E → View
  script : View → Prop

namespace FileSetup

def machine (F : FileSetup E) : Machine FlatFs Empty where
  text := F.text
  platform := flatPlatform F.below
  scheduler := F.scheduler

def registry (F : FileSetup E) : ToolRegistry FlatFs Empty :=
  flatRegistry F.text F.below F.base F.tools_ctx

end FileSetup

/-- Two records of the same call with the same result, whether or not it came from the cache. -/
structure Alike (a b : ToolExecutionRecord) : Prop where
  ordinal : a.ordinal = b.ordinal
  tool_name : a.tool_name = b.tool_name
  arguments : a.arguments = b.arguments
  ok : a.result.ok = b.result.ok
  output : a.result.output = b.result.output
  error_message : a.result.error_message = b.result.error_message

/-- Each entry of the cache for a file tool has the output of a success of the ledger. -/
def CacheSound (cache : Cache) (ledger : List ToolExecutionRecord) : Prop :=
  ∀ name args entry, name = lit "read_file" ∨ name = lit "write_file" →
    cache.entries.lookup (name ++ "|" ++ args) = some entry →
    ∃ a ∈ ledger, a.tool_name = name ∧ a.arguments = args ∧ a.result.ok = true
      ∧ a.result.output = entry.value

/-- The key of a call of a file tool tells its name and its arguments. -/
theorem fileKey_inj {name name' args args' : Str}
    (hn : name = lit "read_file" ∨ name = lit "write_file")
    (hn' : name' = lit "read_file" ∨ name' = lit "write_file")
    (h : name ++ "|" ++ args = name' ++ "|" ++ args') : name = name' ∧ args = args' := by
  have hne : ∀ x y : Str, lit "read_file" ++ x ≠ lit "write_file" ++ y := fun x y he => by
    have hhead := congrArg List.head? he
    simp [lit] at hhead
  rw [List.append_assoc, List.append_assoc] at h
  rcases hn with rfl | rfl <;> rcases hn' with rfl | rfl
  · exact ⟨rfl, List.append_cancel_left (List.append_cancel_left h)⟩
  · exact absurd h (hne _ _)
  · exact absurd h.symm (hne _ _)
  · exact ⟨rfl, List.append_cancel_left (List.append_cancel_left h)⟩

/-- The cache stays sound when a success of the ledger is put in it. -/
theorem CacheSound.put {cache : Cache} {ledger : List ToolExecutionRecord}
    (h : CacheSound cache ledger) {a : ToolExecutionRecord} (ha : a ∈ ledger)
    (hname : a.tool_name = lit "read_file" ∨ a.tool_name = lit "write_file")
    (hok : a.result.ok = true) (deps : List Str) (cacheable : Bool) :
    CacheSound (cache.put (a.tool_name ++ "|" ++ a.arguments) a.result.output deps cacheable)
      ledger := by
  intro name args entry hn hentry
  by_cases hkey : name ++ "|" ++ args = a.tool_name ++ "|" ++ a.arguments
  · obtain ⟨rfl, rfl⟩ := fileKey_inj hn hname hkey
    refine ⟨a, ha, rfl, rfl, hok, ?_⟩
    simp only [Cache.put] at hentry
    rw [AList.lookup_insert] at hentry
    obtain rfl := Option.some.inj hentry
    rfl
  · simp only [Cache.put] at hentry
    rw [AList.lookup_insert_ne hkey] at hentry
    exact h name args entry hn hentry

theorem CacheSound.invalidate {cache : Cache} {ledger : List ToolExecutionRecord}
    (h : CacheSound cache ledger) (paths : List Str) :
    CacheSound (paths.foldl (fun cache p => cache.invalidate_dependency ("file:" ++ p)) cache)
      ledger := by
  induction paths generalizing cache with
  | nil => exact h
  | cons p paths ih => exact ih fun name args entry hn hentry => h name args entry hn hentry

theorem CacheSound.mono {cache : Cache} {ledger ledger' : List ToolExecutionRecord}
    (h : CacheSound cache ledger) (hsub : ledger ⊆ ledger') : CacheSound cache ledger' :=
  fun name args entry hn hentry => by
    obtain ⟨a, ha, h⟩ := h name args entry hn hentry
    exact ⟨a, hsub ha, h⟩

/-- An orchestrator in the setting. -/
structure Fits (F : FileSetup E) (o : Orchestrator FlatFs Empty E) : Prop where
  registry : o.registry = F.registry
  tool_ctx : o.tool_ctx = F.ctx
  passive : o.replay.Passive F.view

/-- Two runs that agree on all but the cache, the second of which does not use its own and has the
ledger `L`. -/
structure Twins (F : FileSetup E) (L : List ToolExecutionRecord) (s t : Sys FlatFs Empty E) :
    Prop where
  fits : Fits F s.self
  fits' : Fits F t.self
  uncached : t.self.options.cache_tools = false
  root : s.self.options.side_effect_root = t.self.options.side_effect_root
  pricing : s.self.options.pricing = t.self.options.pricing
  retrying : s.self.retrying = t.self.retrying
  router : s.self.router = t.self.router
  context : s.self.context = t.self.context
  cascade : s.self.cascade = t.self.cascade
  side_effects : s.self.side_effects = t.self.side_effects
  scripted : ∀ rp ∈ t.self.retrying, ∀ p, rp.inner = some p → Scripted F.text F.view F.script p
  env : F.view s.env = F.view t.env
  script : F.script (F.view s.env)
  world : s.world = t.world
  ledger' : t.ledger = L
  ledger : List.Forall₂ Alike s.ledger L
  holds : t.world = afterRecords F.text F.files L
  sound : Sound F.text F.ctx F.files L
  cached : CacheSound s.self.cache L

/-- What the two runs agree on when they end. -/
structure Ended (s t : Sys FlatFs Empty E) : Prop where
  world : s.world = t.world
  ledger : List.Forall₂ Alike s.ledger t.ledger

theorem Twins.ended {F : FileSetup E} {L : List ToolExecutionRecord} {s t : Sys FlatFs Empty E}
    (h : Twins F L s t) : Ended s t := ⟨h.world, h.ledger' ▸ h.ledger⟩

theorem Fits.lookedUp {F : FileSetup E} {s s' : Sys FlatFs Empty E} (h : Fits F s.self)
    (hl : Orchestrator.LookedUp s s') : Fits F s'.self where
  registry := hl.registry.trans h.registry
  tool_ctx := hl.tool_ctx.trans h.tool_ctx
  passive := hl.passive h.passive

/-- Lookups leave the runs side by side. -/
theorem Twins.lookedUp {F : FileSetup E} {L : List ToolExecutionRecord}
    {s t s' t' : Sys FlatFs Empty E} (h : Twins F L s t) (hl : Orchestrator.LookedUp s s')
    (hl' : Orchestrator.LookedUp t t') : Twins F L s' t' where
  fits := h.fits.lookedUp hl
  fits' := h.fits'.lookedUp hl'
  uncached := by rw [hl'.options, h.uncached]
  root := by rw [hl.options, hl'.options, h.root]
  pricing := by rw [hl.options, hl'.options, h.pricing]
  retrying := by rw [hl.retrying, hl'.retrying, h.retrying]
  router := by rw [hl.router, hl'.router, h.router]
  context := by rw [hl.context, hl'.context, h.context]
  cascade := by rw [hl.cascade, hl'.cascade, h.cascade]
  side_effects := by rw [hl.side_effects, hl'.side_effects, h.side_effects]
  scripted := by rw [hl'.retrying]; exact h.scripted
  env := by rw [hl.env F.view h.fits.passive, hl'.env F.view h.fits'.passive, h.env]
  script := by
    rw [hl.env F.view h.fits.passive]
    exact h.script
  world := by rw [hl.world, hl'.world, h.world]
  ledger' := hl'.ledger.trans h.ledger'
  ledger := by rw [hl.ledger]; exact h.ledger
  holds := hl'.world.trans h.holds
  sound := h.sound
  cached := fun name args entry hn hentry => h.cached name args entry hn (hl.entries ▸ hentry)

/-- Recording an event changes nothing that is seen but the replay. -/
theorem Fits.exec_record {F : FileSetup E} {s : Sys FlatFs Empty E} (h : Fits F s.self)
    (kind : EventKind) (payload : List (Str × Json)) :
    ∃ env, F.view env = F.view s.env ∧ (Orchestrator.record kind payload).exec s
      = (.ok (),
        let self := s.self
        { s with
          self := { self with
            replay := self.replay.push { kind := kind, payload := .ofFields payload } }
          env := env }) := by
  let event : Event := { kind := kind, payload := .ofFields payload }
  have hok : (s.self.replay.record event s.env).1 = .ok () :=
    Replay.record_ok h.passive.quiet event s.env
  exact ⟨(s.self.replay.record event s.env).2.2, Replay.record_view h.passive event s.env,
    Prod.ext hok rfl⟩

namespace Orchestrator

variable {F : FileSetup E} {L : List ToolExecutionRecord} {α : Type}

/-- The same program in both runs, which returns the same value in both and leaves the ledger. -/
abbrev Together (F : FileSetup E) (L : List ToolExecutionRecord) (x y : RunM FlatFs Empty E α)
    (P : α → Prop) : Prop :=
  Sim (Twins F L) x y (Same P (Twins F L)) Ended

theorem together_pure {a : α} {P : α → Prop} (h : P a) :
    Together F L (pure a : RunM FlatFs Empty E α) (pure a) P :=
  Sim.pure fun _ _ hst => ⟨rfl, h, hst⟩

theorem together_bind {β γ : Type} {x y : RunM FlatFs Empty E α} {P : α → Prop}
    {f : α → RunM FlatFs Empty E β} {g : α → RunM FlatFs Empty E γ}
    {Q : β → γ → Sys FlatFs Empty E → Sys FlatFs Empty E → Prop} (hx : Together F L x y P)
    (hf : ∀ a, P a → Sim (Twins F L) (f a) (g a) Q Ended) :
    Sim (Twins F L) (x >>= f) (y >>= g) Q Ended := hx.bindSame hf

theorem together_ofExcept {e : Except Exn α} :
    Together F L (Prog.ofExcept e : RunM FlatFs Empty E α) (Prog.ofExcept e) fun a => e = .ok a :=
  Sim.ofExcept (fun _ _ hst => hst.ended) fun _ ha _ _ hst => ⟨rfl, ha, hst⟩

theorem together_step {f g : Sys FlatFs Empty E → α × Sys FlatFs Empty E} {P : α → Prop}
    (h : ∀ s t, Twins F L s t → (f s).1 = (g t).1 ∧ P (f s).1 ∧ Twins F L (f s).2 (g t).2) :
    Together F L (Prog.step f) (Prog.step g) P := Sim.step h

theorem together_modifySelf {f g : Orchestrator FlatFs Empty E → Orchestrator FlatFs Empty E}
    (h : ∀ s t, Twins F L s t → Twins F L { s with self := f s.self } { t with self := g t.self }) :
    Together F L (modifySelf f) (modifySelf g) fun _ => True :=
  Sim.step fun s t hst => ⟨rfl, trivial, h s t hst⟩

theorem together_record {kind : EventKind} {payload : List (Str × Json)} :
    Together F L (record kind payload) (record kind payload) fun _ => True := by
  intro s t hst
  obtain ⟨env, henv, hs⟩ := hst.fits.exec_record kind payload
  obtain ⟨env', henv', ht⟩ := hst.fits'.exec_record kind payload
  rw [hs, ht]
  exact ⟨rfl, trivial,
    { hst with
      fits := { hst.fits with }
      fits' := { hst.fits' with }
      env := (henv.trans hst.env).trans henv'.symm
      script := henv.symm ▸ hst.script }⟩

/-- A completion leaves the runs side by side. -/
theorem twins_completed {s t : Sys FlatFs Empty E} (hst : Twins F L s t)
    {rp rp' : RetryingProvider E} (hrp : rp ∈ t.self.retrying) (hinner : rp'.inner = rp.inner)
    {env env' : E} (henv : F.view env = F.view env') (hscript : F.script (F.view env)) (i : ℕ) :
    let self := s.self
    let self' := t.self
    Twins F L { s with self := { self with retrying := self.retrying.set i rp' }, env := env }
      { t with self := { self' with retrying := self'.retrying.set i rp' }, env := env' } :=
  { hst with
    fits := { hst.fits with }
    fits' := { hst.fits' with }
    retrying := by simp only [hst.retrying]
    scripted := fun q hq p hp => by
      rcases List.mem_or_eq_of_mem_set hq with hq | rfl
      · exact hst.scripted q hq p hp
      · exact hst.scripted rp hrp p (hinner ▸ hp)
    env := henv
    script := hscript }

theorem together_complete_for {role : Role} {ms ms' : Messages} (hms : SameText ms ms') :
    Together F L (complete_for role ms) (complete_for role ms')
      fun response => Proposes F.text (.ok response) := by
  intro s t hst
  unfold complete_for
  rw [Prog.exec_of, Prog.exec_of]
  have htier : s.self.for_tier (s.self.cascade.route_for role)
      = t.self.for_tier (t.self.cascade.route_for role) := by
    rw [hst.cascade]
    unfold for_tier
    rw [hst.router, hst.retrying]
  dsimp only
  rw [htier]
  cases hfor : t.self.for_tier (t.self.cascade.route_for role) with
  | none =>
    dsimp only
    rw [hst.cascade]
    exact ⟨rfl, trivial, hst⟩
  | some found =>
    obtain ⟨i, rp⟩ := found
    have hrp := List.mem_of_getElem? (getElem?_of_for_tier hfor)
    obtain ⟨hresult, hretrying, henv, hscript, hinner, hproposes⟩ :=
      RetryingProvider.complete_scripted (hst.scripted rp hrp) hms hst.env hst.script
    dsimp only
    rw [← hresult, ← hretrying]
    have htwins := twins_completed hst hrp hinner henv hscript i
    rcases hcompleted : (rp.complete ms s.env).1 with e | response
    · exact ⟨rfl, htwins.ended⟩
    · rw [hcompleted] at hproposes
      exact ⟨rfl, hproposes, htwins⟩

theorem together_cascade {f : Orchestrator FlatFs Empty E → Orchestrator FlatFs Empty E}
    (k : ModelCascade → ModelCascade) (hf : ∀ o, f o = { o with cascade := k o.cascade }) :
    Together F L (modifySelf f) (modifySelf f) fun _ => True :=
  together_modifySelf fun s t hst => by
    rw [hf, hf]
    exact { hst with
      fits := { hst.fits with }
      fits' := { hst.fits' with }
      cascade := congrArg k hst.cascade }

theorem together_complete_and_observe {role : Role} {ms ms' : Messages} (hms : SameText ms ms') :
    Together F L (complete_and_observe role ms) (complete_and_observe role ms')
      fun response => Proposes F.text (.ok response.2) := by
  unfold complete_and_observe
  refine together_bind (P := fun _ => True)
    (together_step fun s t hst => ⟨by rw [hst.cascade], trivial, hst⟩) fun tier _ => ?_
  refine together_bind (together_complete_for hms) fun response hresponse => ?_
  refine together_bind (P := fun _ => True) ?_ fun _ _ => together_pure hresponse
  cases response with
  | error e => exact together_cascade (·.record_failure tier) fun _ => rfl
  | ok resp =>
    exact together_cascade
      (·.record_outcome tier (resp.outcome.plan.isEmpty && resp.outcome.has_tool_use)) fun _ => rfl

theorem together_account {raw : Json} :
    Together F L (account raw) (account raw) fun _ => True := by
  unfold account
  split
  · exact together_pure trivial
  · refine together_bind together_ofExcept fun prompt _ => ?_
    refine together_bind together_ofExcept fun completion _ => ?_
    refine together_step fun s t hst => ⟨?_, trivial, ?_⟩
    · dsimp only
      rw [hst.pricing]
    · exact { hst with fits := { hst.fits with }, fits' := { hst.fits' with } }

theorem together_decision_review {turn : UInt32} {ms ms' : Messages} {plan : Str}
    {calls : List ToolCall} (hms : SameText ms ms') :
    Together F L (decision_review turn ms plan calls) (decision_review turn ms' plan calls)
      fun review => ∀ calls', review = .run calls' → calls' = calls ∨ calls' = [] := by
  unfold decision_review
  refine together_bind (together_complete_and_observe (hms.append rfl)) ?_
  rintro ⟨decision_tier, response⟩ -
  have hkeep : ∀ calls', Review.run calls = .run calls' → calls' = calls ∨ calls' = [] := by
    rintro calls' ⟨⟩
    exact .inl rfl
  cases response with
  | error err =>
    exact together_bind (together_cascade (·.record_failure decision_tier) fun _ => rfl)
      fun _ _ => together_pure hkeep
  | ok resp =>
    dsimp only
    cases overridePlan resp.outcome.plan with
    | none => exact together_pure hkeep
    | some override_plan =>
      refine together_bind together_record fun _ _ => ?_
      refine together_bind (together_cascade (·.record_outcome decision_tier true) fun _ => rfl)
        fun _ _ => ?_
      split_ifs
      · exact together_bind together_record fun _ _ => together_pure fun _ h => by cases h
      · refine together_pure fun calls' h => .inr ?_
        cases h
        rfl

/-- The records of the two runs, of calls of the file tools that the ledger has. -/
def Paired (L : List ToolExecutionRecord) (a b : ToolExecutionRecord) : Prop :=
  Alike a b ∧ b ∈ L ∧ (b.tool_name = lit "read_file" ∨ b.tool_name = lit "write_file")

theorem together_cache_result {views : List CallView} {a b : ToolExecutionRecord}
    (h : Paired L a b) :
    Together F L (modifySelf (cache_result views a)) (modifySelf (cache_result views b))
      fun _ => True := by
  refine together_modifySelf fun s t hst => ?_
  obtain ⟨hab, hb, hname⟩ := h
  have huncached : cache_result views b t.self = t.self := by
    unfold cache_result
    rw [hst.uncached, Bool.and_false]
    rfl
  rw [huncached]
  unfold cache_result
  split_ifs with hok
  · split
    · next view hview =>
      have hkey : cache_key view = b.tool_name ++ "|" ++ b.arguments := by
        have hfound := List.find?_some hview
        simp only [Bool.and_eq_true, beq_iff_eq] at hfound
        rw [← hab.tool_name, ← hab.arguments, cache_key, hfound.1, hfound.2]
      have hbok : b.result.ok = true := by
        rw [← hab.ok]
        exact (Bool.and_eq_true _ _ ▸ hok).1
      have hput := hst.cached.put hb hname hbok view.dependencies s.self.options.cache_tools
      rw [← hkey, ← hab.output] at hput
      exact { hst with fits := { hst.fits with }, cached := hput }
    · exact hst
  · exact hst

theorem together_store_result {body : Str} :
    Together F L (store_result F.text body) (store_result F.text body) fun _ => True := by
  refine together_step fun s t hst => ⟨?_, trivial, ?_⟩
  · dsimp only
    rw [hst.context]
  · exact { hst with
      fits := { hst.fits with }
      fits' := { hst.fits' with }
      context := by dsimp only; rw [hst.context] }

theorem resultBody_alike (T : JsonText) {a b : ToolExecutionRecord} (h : Alike a b) :
    resultBody T a = resultBody T b := by
  unfold resultBody
  rw [h.output, h.error_message]

theorem together_record_result {views : List CallView} {chosen_tier : Tier}
    {a b : ToolExecutionRecord} (h : Paired L a b) :
    Sim (Twins F L) (record_result F.machine chosen_tier views a)
      (record_result F.machine chosen_tier views b)
      (fun x y s t => x.1 = y.1 ∧ SameText [x.2] [y.2] ∧ Twins F L s t) Ended := by
  unfold record_result
  obtain ⟨hab, -, -⟩ := id h
  rw [hab.tool_name, hab.ok, resultBody_alike _ hab]
  refine together_bind (P := fun _ => True) (together_modifySelf fun s t hst => ?_) fun _ _ => ?_
  · exact { hst with fits := { hst.fits with }, fits' := { hst.fits' with } }
  refine together_bind together_record fun _ _ => ?_
  refine together_bind (P := fun _ => True) ?_ fun _ _ => ?_
  · cases b.result.ok with
    | true => exact together_modifySelf fun s t hst => hst
    | false => exact together_cascade (·.record_failure chosen_tier) fun _ => rfl
  refine together_bind (together_cache_result h) fun _ _ => ?_
  refine together_bind together_ofExcept fun body _ => ?_
  refine together_bind together_store_result fun fact_id _ => ?_
  exact Sim.pure fun s t hst => ⟨rfl, rfl, hst⟩

theorem together_record_results {views : List CallView} {chosen_tier : Tier} :
    ∀ {records records' : List ToolExecutionRecord} {turn_ctx : TurnContext} {ms ms' : Messages},
      List.Forall₂ (Paired L) records records' → SameText ms ms' →
      Sim (Twins F L) (record_results F.machine chosen_tier views records turn_ctx ms)
        (record_results F.machine chosen_tier views records' turn_ctx ms')
        (fun x y s t => x.1 = y.1 ∧ SameText x.2 y.2 ∧ Twins F L s t) Ended
  | _, _, turn_ctx, ms, ms', .nil, hms => Sim.pure fun s t hst => ⟨rfl, hms, hst⟩
  | a :: records, b :: records', turn_ctx, ms, ms', .cons h hrest, hms => by
    rw [record_results_cons, record_results_cons]
    refine Sim.bind (together_record_result h) ?_
    rintro ⟨fact_id, message⟩ ⟨fact_id', message'⟩ s t ⟨rfl, hmessage, hst⟩
    exact together_record_results hrest (hms.append hmessage) s t hst

theorem together_feed_working_set {turn_ctx : TurnContext} {ms ms' : Messages}
    (hms : SameText ms ms') :
    Sim (Twins F L)
      (Prog.step fun s => (feed_working_set s.self ms turn_ctx, s) : RunM FlatFs Empty E Messages)
      (Prog.step fun t => (feed_working_set t.self ms' turn_ctx, t))
      (fun x y s t => SameText x y ∧ Twins F L s t) Ended := by
  refine Sim.step fun s t hst => ⟨?_, hst⟩
  unfold feed_working_set
  dsimp only
  rw [hst.context]
  split_ifs
  · exact hms
  · exact hms.append rfl

/-- Looking for changed files on a flat file system throws nothing. -/
theorem together_apply_side_effects :
    Together F L (apply_side_effects F.machine) (apply_side_effects F.machine) fun _ => True := by
  unfold apply_side_effects
  refine together_bind (P := fun _ => True) (fun s t hst => ?_) fun changed _ => ?_
  · rw [Prog.exec_of, Prog.exec_of]
    dsimp only
    rw [hst.root, hst.side_effects, hst.world]
    rcases (if t.self.options.side_effect_root.isEmpty then pure []
      else t.self.side_effects.diff F.machine.platform t.world t.self.options.side_effect_root) with
      e | changed
    · exact ⟨rfl, hst.ended⟩
    · exact ⟨rfl, trivial, hst⟩
  · split_ifs
    · exact together_pure trivial
    · refine together_bind together_record fun _ _ => together_modifySelf fun s t hst => ?_
      exact { hst with
        fits := { hst.fits with }
        fits' := { hst.fits' with }
        cached := hst.cached.invalidate changed }

end Orchestrator

end Praxis
