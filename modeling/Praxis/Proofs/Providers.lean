import Praxis.Proofs.Frame

/-!
# Who answers a completion

The orchestrator keeps a `RetryingProvider` for each tier it was given a provider for, and runs do
not change which. The constructor from a router does not take over the router's providers: until
`set_provider` replaces them, completions for their tiers fail (`answered_iff`).
-/

namespace Praxis

open Effect (Prog Blocks Keeps)

namespace Orchestrator

variable {W U E α : Type} {M : Machine W U} {task : Str} {budget : Budget}

/-- What stands behind a retrying provider. -/
def backing (rp : RetryingProvider E) : Option (Provider E) × RetryPolicy := (rp.inner, rp.policy)

/-- The part of an orchestrator that decides who answers. -/
def wiring (s : Sys W U E) :
    OrchestratorOptions × (AList fun _ : Tier => ℕ) × List (Option (Provider E) × RetryPolicy) :=
  (s.self.options, s.self.router, s.self.retrying.map backing)

theorem wiring_complete_for (role : Role) (messages : Messages) (s : Sys W U E) :
    wiring ((complete_for role messages).exec s).2 = wiring s := by
  unfold complete_for
  rw [Prog.exec_of]
  dsimp only
  split
  · rfl
  · next i provider hfind =>
    have hbacking : (s.self.retrying.set i (provider.complete messages s.env).2.1).map backing
        = s.self.retrying.map backing :=
      map_set_complete (fun _ => rfl) (fun _ _ => rfl) hfind messages s.env
    simp only [wiring, hbacking]

theorem wiring_does {k : Action} {x : RunM W U E α} (h : Does M k x) :
    Keeps (fun s s' => wiring s' = wiring s) x := fun s => by
  by_cases hk : k = .complete
  · cases h with
    | complete_for role messages => exact wiring_complete_for role messages s
    | _ => cases hk
  · have hwrites := h.writes s
    revert hwrites
    generalize (x.exec s).2 = s'
    intro hwrites
    cases hwrites with
    | complete => exact absurd rfl hk
    | _ => rfl

theorem wiring_block (p : Point) :
    Keeps (fun s s' => wiring s' = wiring s) (p.block M task budget : RunM W U E Point) :=
  (runs_block p).keeps (R := fun s s' => wiring s' = wiring s) (fun _ => rfl)
    (fun _ _ _ h h' => h'.trans h) fun _ _ _ _ hy => wiring_does hy

theorem wiring_run (s : Sys W U E) :
    wiring ((run M task budget).exec s).2 = wiring s := by
  have hend : Keeps (fun s s' => wiring s' = wiring s)
      (toEnd M task budget .start : RunM W U E Point) :=
    Blocks.keeps_toEnd (r := fun s s' => wiring s' = wiring s) _ (fun _ => rfl)
      (fun _ _ _ h h' => h'.trans h) wiring_block _
  rw [toEnd_start] at hend
  exact hend.of_map s

/-- What an orchestrator is constructed from, a router with its own provider for each tier. -/
inductive Setup (E : Type)
  | provider (provider : Provider E)
  | router (own : Tier → Provider E)

namespace Setup

def source : Setup E → Source E
  | provider p => .provider p
  | router _ => .router

def own : Setup E → Tier → Provider E
  | provider p, _ => p
  | router own, tier => own tier

def isProvider : Setup E → Bool
  | provider _ => true
  | router _ => false

end Setup

def started (options : OrchestratorOptions) (setup : Setup E) (world : W) (env : E) : Sys W U E :=
  { self := construct options setup.source, world := world, env := env }

/-- The providers of the tiers after one more call. -/
def installs (current : Tier → Provider E) : ClientCall W U E → Tier → Provider E
  | .set_provider tier (some provider) => Function.update current tier provider
  | _ => current

/-- The provider that was installed last for a tier. -/
def installed (setup : Setup E) (calls : List (ClientCall W U E)) : Tier → Provider E :=
  calls.foldl installs setup.own

def Replaced (calls : List (ClientCall W U E)) (tier : Tier) : Prop :=
  ∃ provider, .set_provider tier (some provider) ∈ calls

/-- Each tier that has a provider is served by it, through a `RetryingProvider` with the policy. -/
structure Wired (policy : RetryPolicy) (provider : Tier → Option (Provider E)) (s : Sys W U E) :
    Prop where
  policy_eq : s.self.options.retry_policy = policy
  inRange : ∀ tier i, s.self.router.lookup tier = some i → i < s.self.retrying.length
  served : ∀ tier, ((s.self.router.lookup tier).bind fun i => (s.self.retrying.map backing)[i]?)
    = (provider tier).map fun p => (some p, policy)

variable {policy : RetryPolicy} {provider : Tier → Option (Provider E)} {s s' : Sys W U E}

theorem Wired.of_wiring (h : Wired policy provider s) (heq : wiring s' = wiring s) :
    Wired policy provider s' := by
  obtain ⟨hoptions, hrest⟩ := Prod.mk.inj heq
  obtain ⟨hrouter, hretrying⟩ := Prod.mk.inj hrest
  have hlength := congrArg List.length hretrying
  rw [List.length_map, List.length_map] at hlength
  exact ⟨hoptions ▸ h.policy_eq, hrouter ▸ hlength ▸ h.inRange, hrouter ▸ hretrying ▸ h.served⟩

/-- A provider that is set serves its tier from then on, and no other. -/
theorem Wired.set_provider (h : Wired policy provider s) (tier : Tier) (p : Provider E) :
    Wired policy (Function.update provider tier (some p))
      { s with self := s.self.set_provider tier (some p) } where
  policy_eq := h.policy_eq
  inRange t i hi := by
    unfold Orchestrator.set_provider at hi ⊢
    dsimp only at hi ⊢
    rw [List.length_append, List.length_singleton]
    by_cases ht : t = tier
    · subst ht
      rw [AList.lookup_insert] at hi
      obtain rfl := Option.some.inj hi
      exact Nat.lt_succ_self _
    · rw [AList.lookup_insert_ne ht] at hi
      exact Nat.lt_succ_of_lt (h.inRange t i hi)
  served t := by
    -- the new provider comes last, so the others keep their places
    unfold Orchestrator.set_provider
    dsimp only
    rw [List.map_append]
    by_cases ht : t = tier
    · subst ht
      rw [AList.lookup_insert, Function.update_self, Option.bind_some,
        List.getElem?_append_right (by rw [List.length_map]), List.length_map, Nat.sub_self,
        ← h.policy_eq]
      rfl
    · rw [AList.lookup_insert_ne ht, Function.update_of_ne ht, ← h.served t]
      rcases hlookup : s.self.router.lookup t with _ | i
      · rfl
      · rw [Option.bind_some, Option.bind_some, List.getElem?_append_left]
        rw [List.length_map]
        exact h.inRange t i hlookup

/-- The providers that serve the tiers after one more call. -/
def serves (current : Tier → Option (Provider E)) : ClientCall W U E → Tier → Option (Provider E)
  | .set_provider tier (some provider) => Function.update current tier (some provider)
  | _ => current

/-- The provider that serves a tier, if one does. -/
def serving (setup : Setup E) (calls : List (ClientCall W U E)) : Tier → Option (Provider E) :=
  calls.foldl serves fun tier => if setup.isProvider then some (setup.own tier) else none

theorem wired_started (options : OrchestratorOptions) (setup : Setup E) (world : W) (env : E) :
    Wired options.retry_policy (serving setup ([] : List (ClientCall W U E)))
      (started options setup world env : Sys W U E) := by
  cases setup with
  | provider p =>
    refine ⟨rfl, fun tier i hi => ?_, fun tier => by cases tier <;> rfl⟩
    have hzero : i = 0 := by cases tier <;> exact (Option.some.inj hi).symm
    subst hzero
    exact Nat.one_pos
  | router own => exact ⟨rfl, fun tier i hi => (by cases hi), fun tier => rfl⟩

theorem Wired.call (h : Wired policy provider s) (call : ClientCall W U E) :
    Wired policy (serves provider call) (call.exec M s) := by
  cases call with
  | run task budget => exact h.of_wiring (wiring_run s)
  | set_provider tier p =>
    cases p with
    | none => exact h
    | some p => exact h.set_provider tier p
  | _ => exact h.of_wiring rfl

theorem wired_calls (options : OrchestratorOptions) (setup : Setup E) (world : W) (env : E)
    (calls : List (ClientCall W U E)) :
    Wired options.retry_policy (serving setup calls)
      (calls.foldl (ClientCall.exec M) (started options setup world env)) := by
  induction calls using List.reverseRecOn with
  | nil => exact wired_started options setup world env
  | append_singleton calls call ih =>
    rw [List.foldl_append, serving, List.foldl_append]
    exact ih.call call

theorem replaced_concat (calls : List (ClientCall W U E)) (call : ClientCall W U E) (tier : Tier) :
    Replaced (calls ++ [call]) tier ↔
      Replaced calls tier ∨ ∃ p, call = .set_provider tier (some p) := by
  simp only [Replaced, List.mem_append, List.mem_singleton, exists_or]
  exact or_congr_right (exists_congr fun p => eq_comm)

/-- A call either sets the provider of the tier or leaves it. -/
theorem installs_cases (call : ClientCall W U E) (tier : Tier) :
    (∃ p, call = .set_provider tier (some p) ∧ (∀ current, serves current call tier = some p)
        ∧ ∀ current, installs current call tier = p)
      ∨ (∀ p, call ≠ .set_provider tier (some p))
        ∧ (∀ current, serves current call tier = current tier)
        ∧ ∀ current, installs current call tier = current tier := by
  cases call with
  | set_provider t provider =>
    cases provider with
    | none => exact .inr ⟨fun p hp => (by cases hp), fun _ => rfl, fun _ => rfl⟩
    | some p =>
      by_cases ht : tier = t
      · subst ht
        exact .inl ⟨p, rfl, fun _ => Function.update_self _ _ _,
          fun _ => Function.update_self _ _ _⟩
      · exact .inr ⟨fun p' hp => ht (by cases hp; rfl), fun _ => Function.update_of_ne ht _ _,
          fun _ => Function.update_of_ne ht _ _⟩
  | _ => exact .inr ⟨fun p hp => (by cases hp), fun _ => rfl, fun _ => rfl⟩

/-- A tier is served by the provider installed last, unless that is the own one of a router. -/
theorem serving_eq (setup : Setup E) (calls : List (ClientCall W U E)) (tier : Tier) :
    (setup.isProvider = true ∨ Replaced calls tier →
        serving setup calls tier = some (installed setup calls tier))
      ∧ (¬ (setup.isProvider = true ∨ Replaced calls tier) → serving setup calls tier = none) := by
  induction calls using List.reverseRecOn with
  | nil =>
    have hnone : ¬ Replaced ([] : List (ClientCall W U E)) tier := fun ⟨_, h⟩ => by cases h
    cases setup <;> simp [serving, installed, Setup.isProvider, hnone]
  | append_singleton calls call ih =>
    have hserving : serving setup (calls ++ [call]) = serves (serving setup calls) call :=
      List.foldl_append
    have hinstalled : installed setup (calls ++ [call]) = installs (installed setup calls) call :=
      List.foldl_append
    rw [replaced_concat, hserving, hinstalled]
    rcases installs_cases call tier with
      ⟨p, hcall, hserves, hinstalls⟩ | ⟨hcall, hserves, hinstalls⟩
    · rw [hserves, hinstalls]
      exact ⟨fun _ => rfl, fun hnot => absurd (.inr (.inr ⟨p, hcall⟩)) hnot⟩
    · rw [hserves, hinstalls, or_iff_left (a := Replaced calls tier) fun ⟨p, hp⟩ => hcall p hp]
      exact ih

/-- A completion for the role is one of a `RetryingProvider` with the policy that wraps just the
provider. -/
def AnsweredBy (policy : RetryPolicy) (p : Provider E) (role : Role) (s : Sys W U E) : Prop :=
  ∃ i rp, s.self.for_tier (s.self.cascade.route_for role) = some (i, rp)
    ∧ rp.inner = some p ∧ rp.policy = policy
    ∧ ∀ messages, ((complete_for role messages).exec s).1 = (rp.complete messages s.env).1
      ∧ ((complete_for role messages).exec s).2.env = (rp.complete messages s.env).2.2

theorem Wired.answeredBy_iff (h : Wired policy provider s) (p : Provider E) (role : Role) :
    AnsweredBy policy p role s ↔ provider (s.self.cascade.route_for role) = some p := by
  have hserved := h.served (s.self.cascade.route_for role)
  constructor
  · rintro ⟨i, rp, hfind, hinner, hpolicy, -⟩
    obtain ⟨j, hlookup, hrest⟩ := Option.bind_eq_some_iff.1 hfind
    obtain ⟨q, hq, heq⟩ := Option.map_eq_some_iff.1 hrest
    obtain ⟨rfl, rfl⟩ := Prod.mk.inj heq
    rw [hlookup, Option.bind_some, List.getElem?_map, hq, Option.map_some] at hserved
    obtain ⟨p', hp', heq'⟩ := Option.map_eq_some_iff.1 hserved.symm
    rw [hp', ← hinner]
    exact congrArg Prod.fst heq'
  · intro hp
    rw [hp, Option.map_some] at hserved
    obtain ⟨i, hlookup, hi⟩ := Option.bind_eq_some_iff.1 hserved
    rw [List.getElem?_map] at hi
    obtain ⟨rp, hrp, hbacking⟩ := Option.map_eq_some_iff.1 hi
    have hfind : s.self.for_tier (s.self.cascade.route_for role) = some (i, rp) := by
      unfold for_tier
      rw [hlookup, Option.bind_some, hrp]
      rfl
    refine ⟨i, rp, hfind, congrArg Prod.fst hbacking, congrArg Prod.snd hbacking,
      fun messages => ?_⟩
    unfold complete_for
    rw [Prog.exec_of]
    dsimp only
    rw [hfind]
    exact ⟨rfl, rfl⟩

/-- At any point of any run of a session, a completion for a role is answered by the provider
installed last for the tier that the role is routed to, through one `RetryingProvider` with the
policy of the options, if and only if the orchestrator was constructed from a provider or one was
set for that tier. -/
theorem answered_iff (options : OrchestratorOptions) (setup : Setup E) (world : W) (env : E)
    (calls : List (ClientCall W U E)) {m : Config W U E × Config W U E}
    (hm : m ∈ moves M task budget
      (calls.foldl (ClientCall.exec M) (started options setup world env))) (role : Role) :
    AnsweredBy options.retry_policy
        (installed setup calls (m.1.2.self.cascade.route_for role)) role m.1.2 ↔
      setup.isProvider = true ∨ Replaced calls (m.1.2.self.cascade.route_for role) := by
  generalize hs : calls.foldl (ClientCall.exec M) (started options setup world env) = s at hm
  have hwired : Wired options.retry_policy (serving setup calls) s :=
    hs ▸ wired_calls options setup world env calls
  -- no block of the run changes who answers
  have hwiring : wiring m.1.2 = wiring s := by
    refine (Blocks.mem_moves (control M task budget) (I := fun c => wiring c.2 = wiring s)
      (fun c c' hc h => ?_) rfl m hm).1
    obtain ⟨_ | p, s₁⟩ := c
    · cases h
    · have hkept : wiring ((p.block M task budget : RunM W U E Point).exec s₁).2 = wiring s₁ :=
        wiring_block p s₁
      rw [(exec_of_advance h).2] at hkept
      exact hkept.trans hc
  rw [(hwired.of_wiring hwiring).answeredBy_iff]
  obtain ⟨hserved, hbare⟩ := serving_eq setup calls (m.1.2.self.cascade.route_for role)
  by_cases h : setup.isProvider = true ∨ Replaced calls (m.1.2.self.cascade.route_for role)
  · exact iff_of_true (hserved h) h
  · refine iff_of_false (fun hsome => ?_) h
    rw [hbare h] at hsome
    cases hsome

/-- A session with an orchestrator constructed from a router, where other providers were set for
some tiers. -/
def routerStart (tiers : List Tier) : Sys FlatFs Empty (List ModelResponse) :=
  (tiers.map fun tier => .set_provider tier (some scripted)).foldl
    (ClientCall.exec (scriptedMachine (.ofTable [])))
    (started {} (.router fun _ => scripted) (fun _ => none) [answer "done"])

theorem answered_swapped :
    ∃ m, (moves (scriptedMachine (.ofTable [])) "task" {} (routerStart [.Small]))[2]? = some m
      ∧ m.1.2.self.cascade.route_for .Chore = .Small
      ∧ AnsweredBy {} scripted .Chore m.1.2 := by
  have hroute : ((moves (scriptedMachine (.ofTable [])) "task" {} (routerStart [.Small]))[2]?.map
      fun m => m.1.2.self.cascade.route_for .Chore) = some .Small := by decide +kernel
  obtain ⟨m, hm, htier⟩ := Option.map_eq_some_iff.1 hroute
  have hanswered := (answered_iff {} (.router fun _ => scripted) (fun _ => none) [answer "done"]
    [.set_provider .Small (some scripted)] (List.mem_of_getElem? hm) .Chore).2
      (.inr ⟨scripted, htier ▸ List.mem_singleton.2 rfl⟩)
  rw [htier] at hanswered
  exact ⟨m, hm, htier, hanswered⟩

/-- The router of the constructor has a provider for each tier, but the first run ends where it asks
for its first completion. -/
theorem not_answered_router :
    ((run (scriptedMachine (.ofTable [])) "task" {}).exec (routerStart [])).1
        = .ok (.error { kind := .Internal, message := "no provider for tier 0" })
      ∧ ∃ m, (moves (scriptedMachine (.ofTable [])) "task" {} (routerStart []))[2]? = some m
        ∧ ¬ AnsweredBy {} scripted .Chore m.1.2 := by
  refine ⟨by decide +kernel, ?_⟩
  have hbare : ((moves (scriptedMachine (.ofTable [])) "task" {} (routerStart []))[2]?.map
      fun m => m.1.2.self.for_tier (m.1.2.self.cascade.route_for .Chore) |>.isSome)
        = some false := by decide +kernel
  obtain ⟨m, hm, hnone⟩ := Option.map_eq_some_iff.1 hbare
  refine ⟨m, hm, ?_⟩
  rintro ⟨i, rp, hfind, -⟩
  rw [hfind] at hnone
  cases hnone

end Orchestrator

end Praxis
