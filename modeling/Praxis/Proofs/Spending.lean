import Praxis.Proofs.Frame
import Mathlib.Algebra.Order.BigOperators.Group.List

/-!
# What a run costs

`run` prices the usage of chore completions as they come in and tests the cost against the budget
there; of the decisions it does not read the usage. So the cost covers every completion exactly if
the decisions report no tokens (`accounted_iff`).
-/

namespace Praxis

namespace Orchestrator

open Effect (Prog Blocks)

variable {W U E : Type} {M : Machine W U} {task : Str} {budget : Budget}

/-- The natural number that a token count is. -/
def tokenCount : Json → Option ℕ
  | .number_unsigned n => some n
  | .number_integer i => if 0 ≤ i then some i.toNat else none
  | .number_float q => if (q.num.toNat : ℚ) = q then some q.num.toNat else none
  | _ => none

/-- A count of a usage report, 0 where there is none. -/
def usageCount (usage : List (Str × Json)) (key : Str) : Option ℕ :=
  match usage.lookup key with
  | none => some 0
  | some count => tokenCount count

/-- The prompt and completion tokens that a response reports. -/
def reportedTokens (raw : Json) : Option (ℕ × ℕ) :=
  match raw.field? "usage" with
  | none => some (0, 0)
  | some (.object usage) =>
    (usageCount usage "prompt_tokens").bind fun prompt =>
      (usageCount usage "completion_tokens").map fun completion => (prompt, completion)
  | some _ => none

def price (pricing : PricingConfig) (tokens : ℕ × ℕ) : ℚ :=
  (tokens.1 : ℚ) / 1000 * pricing.prompt_per_1k + (tokens.2 : ℚ) / 1000 * pricing.completion_per_1k

@[simp] theorem price_zero (pricing : PricingConfig) : price pricing (0, 0) = 0 := by
  simp [price]

namespace Completion

/-- The tokens that a completion reports; one that fails reports none. -/
def tokens (c : Completion) : ℕ × ℕ :=
  match c.response with
  | .error _ => (0, 0)
  | .ok resp => (reportedTokens resp.raw).getD (0, 0)

/-- The counts are natural numbers below `2 ^ 32`. -/
def reports (c : Completion) : Bool :=
  match c.response with
  | .error _ => true
  | .ok resp => (reportedTokens resp.raw).any fun t => t.1 < 2 ^ 32 && t.2 < 2 ^ 32

theorem exists_of_reports {role : Role} {tier : Tier} {resp : ModelResponse}
    (h : (Completion.mk role tier (.ok resp)).reports) :
    ∃ t, reportedTokens resp.raw = some t ∧ t.1 < 2 ^ 32 ∧ t.2 < 2 ^ 32 := by
  obtain ⟨t, ht, hlt⟩ := (Option.any_eq_true _ _).1 h
  exact ⟨t, ht, by simpa using hlt⟩

theorem tokens_lt {c : Completion} (h : c.reports) : c.tokens.1 < 2 ^ 32 ∧ c.tokens.2 < 2 ^ 32 := by
  obtain ⟨role, tier, err | resp⟩ := c
  · exact ⟨Nat.two_pow_pos 32, Nat.two_pow_pos 32⟩
  · obtain ⟨t, ht, hlt⟩ := exists_of_reports h
    rw [tokens]
    dsimp only
    rw [ht]
    exact hlt

end Completion

/-- The points from which a completion is asked for or calls are run. -/
def Point.spends : Point → Bool
  | asking _ | reviewing _ _ _ _ | calling _ _ _ => true
  | _ => false

/-- The sum over completions of something they report. -/
def total {A : Type} [AddMonoid A] (f : ℕ × ℕ → A) (cs : List Completion) : A :=
  (cs.map fun c => f c.tokens).sum

/-- The result, the counters and the moves of a run agree with what the completions report. -/
structure Accounted (budget : Budget) (s s' : Sys W U E)
    (ms : List (Config W U E × Config W U E)) (r : Result RunResult) : Prop where
  cost : ∀ result, r = .ok result →
    result.cost = total (price s.self.options.pricing) (completions ms)
  prompt : s'.self.telemetry.prompt_tokens
    = s.self.telemetry.prompt_tokens + .ofNat (total Prod.fst (completions ms))
  completion : s'.self.telemetry.completion_tokens
    = s.self.telemetry.completion_tokens + .ofNat (total Prod.snd (completions ms))
  capped : budget.active → 0 < budget.max_cost → ∀ before m after, ms = before ++ m :: after →
    (∃ p, m.1.1 = .ok p ∧ p.spends) →
      total (price s.self.options.pricing) (completions before) < budget.max_cost

theorem ofInt_natCast (n : ℕ) : UInt32.ofInt (n : ℤ) = UInt32.ofNat n := by
  have hmod : ((n : ℤ) % 2 ^ 32).toNat = n % 2 ^ 32 := by omega
  rw [UInt32.ofInt, hmod]
  exact UInt32.ofNat_mod_size

theorem getUInt32_of_tokenCount : ∀ {j : Json} {n : ℕ}, tokenCount j = some n →
    j.getUInt32 = .ok (UInt32.ofNat n)
  | .number_unsigned m, n, h => by
    obtain rfl := Option.some.inj h
    rfl
  | .number_integer i, n, h => by
    simp only [tokenCount] at h
    split_ifs at h with hi
    obtain rfl := Option.some.inj h
    rw [Json.getUInt32, ← ofInt_natCast, Int.toNat_of_nonneg hi]
  | .number_float q, n, h => by
    simp only [tokenCount] at h
    split_ifs at h with hq
    obtain rfl := Option.some.inj h
    have hfloor : q.floor = (q.num.toNat : ℤ) := by
      conv_lhs => rw [← hq]
      exact Rat.floor_intCast _
    rw [Json.getUInt32, ← ofInt_natCast, if_pos (hq ▸ Nat.cast_nonneg _), hfloor]

/-- A count of a report is what `value` reads. -/
theorem value_of_usageCount {usage : List (Str × Json)} {key : Str} {n : ℕ}
    (h : usageCount usage key = some n) :
    (Json.object usage).value Json.getUInt32 key 0 = .ok (UInt32.ofNat n) := by
  unfold usageCount at h
  unfold Json.value
  dsimp only
  rcases hkey : usage.lookup key with _ | count
  · rw [hkey] at h
    obtain rfl := Option.some.inj h
    rfl
  · rw [hkey] at h
    exact getUInt32_of_tokenCount h

theorem toUInt64_ofNat {n : ℕ} (h : n < 2 ^ 32) : (UInt32.ofNat n).toUInt64 = UInt64.ofNat n := by
  rw [← UInt64.toNat_inj]
  simp
  omega

/-- What is counted and charged for a response that reports its tokens. -/
theorem exec_account {raw : Json} {t : ℕ × ℕ} (h : reportedTokens raw = some t)
    (hprompt : t.1 < 2 ^ 32) (hcompletion : t.2 < 2 ^ 32) (s : Sys W U E) :
    ∃ s', (account raw).exec s = (.ok (price s.self.options.pricing t), s')
      ∧ s'.self.options = s.self.options
      ∧ s'.self.telemetry.prompt_tokens = s.self.telemetry.prompt_tokens + .ofNat t.1
      ∧ s'.self.telemetry.completion_tokens
        = s.self.telemetry.completion_tokens + .ofNat t.2 := by
  unfold reportedTokens at h
  unfold account
  rcases hraw : raw.field? "usage" with _ | usage
  · rw [hraw] at h
    obtain rfl := Option.some.inj h
    refine ⟨s, ?_, rfl, by simp, by simp⟩
    simp [price]
  · rw [hraw] at h
    cases usage with
    | object usage =>
      obtain ⟨prompt, hp, h⟩ := Option.bind_eq_some_iff.1 h
      obtain ⟨completion, hc, rfl⟩ := Option.map_eq_some_iff.1 h
      rw [Prog.exec_bind, Prog.exec_ofExcept, value_of_usageCount hp]
      dsimp only
      rw [Prog.exec_bind, Prog.exec_ofExcept, value_of_usageCount hc]
      dsimp only
      rw [Prog.exec_step]
      rw [UInt32.toNat_ofNat_of_lt' hprompt, UInt32.toNat_ofNat_of_lt' hcompletion]
      refine ⟨_, rfl, rfl, ?_, ?_⟩
      · exact congrArg (s.self.telemetry.prompt_tokens + ·) (toUInt64_ofNat hprompt)
      · exact congrArg (s.self.telemetry.completion_tokens + ·) (toUInt64_ofNat hcompletion)
    | _ => cases h

namespace Point

/-- What has been charged so far, where there is a result. -/
def cost : Point → Option ℚ
  | start => some 0
  | head l | asking l | answered l _ _ | reviewing l _ _ _ | reviewed l _ _ _ _ | calling l _ _
  | called l _ _ _ | observing l => some l.result.cost
  | leaving result | ended (.ok result) => some result.cost
  | ended (.error _) => none

/-- The completion that is yet to be charged. -/
def uncharged : Point → ℕ × ℕ
  | answered _ tier response => (Completion.mk .Chore tier response).tokens
  | _ => (0, 0)

/-- The loop may go on from here. -/
def inLoop : Point → Bool
  | leaving _ | ended _ => false
  | _ => true

end Point

theorem Point.of_spends : ∀ {p : Point}, p.spends = true →
    ∃ x, p.cost = some x ∧ p.uncharged = (0, 0) ∧ p.inLoop = true
  | asking _, _ | reviewing _ _ _ _, _ | calling _ _ _, _ => ⟨_, rfl, rfl, rfl⟩

/-- The points whose blocks charge nothing and obtain no chore completion. -/
def Point.free : Point → Bool
  | asking _ | answered _ _ (.ok _) => false
  | _ => true

/-- From `p` to `q` nothing is charged, and nothing is to be. -/
structure Free (p q : Point) : Prop where
  cost : ∀ x ∈ q.cost, p.cost = some x
  uncharged : q.uncharged = (0, 0)
  obtained : ∀ c ∈ q.obtained, c.role = .Decision
  inLoop : q.inLoop → p.inLoop

theorem Point.Next.free {p q : Point} (h : Point.Next M task budget p q) (hfree : p.free = true) :
    Free p q := by
  cases h with
  | answer | bound | complete | propose => cases hfree
  | fail => exact ⟨nofun, rfl, nofun, nofun⟩
  | overrideEnd => exact ⟨fun _ h => h, rfl, nofun, nofun⟩
  | finish h => exact ⟨fun x hx => (congrArg some h.symm).trans hx, rfl, nofun, nofun⟩
  | review => exact ⟨fun _ h => h, rfl, fun c hc => by cases hc; rfl, fun _ => rfl⟩
  | _ => exact ⟨fun _ h => h, rfl, nofun, fun _ => rfl⟩

/-- What is charged for a chore completion. -/
structure Charges (budget : Budget) (l : Loop) (pricing : PricingConfig) (t : ℕ × ℕ) (q : Point) :
    Prop where
  cost : ∀ x ∈ q.cost, x = l.result.cost + price pricing t
  uncharged : q.uncharged = (0, 0)
  obtained : q.obtained = none
  inLoop : q.inLoop → budget_exhausted budget (l.result.cost + price pricing t) = none

theorem charges_answered {l : Loop} {chosen_tier : Tier} {resp : ModelResponse} {t : ℕ × ℕ}
    (hreported : reportedTokens resp.raw = some t) (hprompt : t.1 < 2 ^ 32)
    (hcompletion : t.2 < 2 ^ 32) {s s' : Sys W U E} {q : Point}
    (h : ((Point.answered l chosen_tier (.ok resp)).block M task budget).exec s = (.ok q, s')) :
    Charges budget l s.self.options.pricing t q
      ∧ s'.self.options = s.self.options
      ∧ s'.self.telemetry.prompt_tokens = s.self.telemetry.prompt_tokens + .ofNat t.1
      ∧ s'.self.telemetry.completion_tokens
        = s.self.telemetry.completion_tokens + .ofNat t.2 := by
  unfold Point.block at h
  obtain ⟨_, s₁, hrecord, h⟩ := Prog.exec_bind_eq_ok.1 h
  obtain ⟨turn_cost, s₂, haccount, hrest⟩ := Prog.exec_bind_eq_ok.1 h
  have hcore₁ : core s₁ = core s := (Still.steady (f := id) still_record).exec hrecord
  obtain ⟨s₃, hexec, hoptions, hp, hc⟩ := exec_account hreported hprompt hcompletion s₁
  rw [haccount] at hexec
  obtain ⟨rfl, rfl⟩ : turn_cost = price s.self.options.pricing t ∧ s₂ = s₃ := by
    rw [show s.self.options = s₁.self.options from congrArg Core.options hcore₁.symm]
    simpa using hexec
  have hkept : core s' = core s₂ → s'.self.options = s.self.options
      ∧ s'.self.telemetry.prompt_tokens = s.self.telemetry.prompt_tokens + .ofNat t.1
      ∧ s'.self.telemetry.completion_tokens
        = s.self.telemetry.completion_tokens + .ofNat t.2 := fun hcore => by
    refine ⟨?_, ?_, ?_⟩
    · exact ((congrArg Core.options hcore).trans hoptions).trans (congrArg Core.options hcore₁)
    · refine ((congrArg Core.prompt_tokens hcore).trans hp).trans ?_
      exact congrArg (· + _) (congrArg Core.prompt_tokens hcore₁)
    · refine ((congrArg Core.completion_tokens hcore).trans hc).trans ?_
      exact congrArg (· + _) (congrArg Core.completion_tokens hcore₁)
  dsimp only at hrest
  rcases hexhausted : budget_exhausted budget (l.result.cost + price s.self.options.pricing t) with
    _ | reason
  · rw [hexhausted] at hrest
    dsimp only at hrest
    split_ifs at hrest
    · obtain ⟨_, s₄, hended, hq⟩ := Prog.exec_bind_eq_ok.1 hrest
      cases hq
      exact ⟨⟨fun x hx => (Option.some.inj hx).symm, rfl, rfl, nofun⟩,
        hkept ((Still.steady (f := id) still_record).exec hended)⟩
    · obtain ⟨calls, s₄, hcalls, h⟩ := Prog.exec_bind_eq_ok.1 hrest
      obtain ⟨_, s₅, hcalled, hq⟩ := Prog.exec_bind_eq_ok.1 h
      cases hq
      refine ⟨⟨fun x hx => (Option.some.inj hx).symm, rfl, rfl, fun _ => hexhausted⟩, hkept ?_⟩
      exact ((Still.steady (f := id) still_record).exec hcalled).trans
        ((Still.steady (f := id) still_ofExcept).exec hcalls)
  · rw [hexhausted] at hrest
    dsimp only at hrest
    obtain ⟨_, s₄, hhit, hq⟩ := Prog.exec_bind_eq_ok.1 hrest
    cases hq
    exact ⟨⟨fun x hx => (Option.some.inj hx).symm, rfl, rfl, nofun⟩,
      hkept ((Still.steady (f := id) still_record).exec hhit)⟩

def chores (cs : List Completion) : List Completion := cs.filter fun c => c.role == .Chore

section Total

variable {A : Type} [AddMonoid A] {f : ℕ × ℕ → A}

theorem total_append (cs cs' : List Completion) :
    total f (cs ++ cs') = total f cs + total f cs' := by
  rw [total, List.map_append, List.sum_append, total, total]

theorem total_chores_append (cs : List Completion) {cs' : List Completion}
    (h : ∀ c ∈ cs', c.role = .Decision) : total f (chores (cs ++ cs')) = total f (chores cs) := by
  have hnil : chores cs' = [] := List.filter_eq_nil_iff.2 fun c hc => by simp [h c hc]
  rw [chores, List.filter_append, ← chores, ← chores, hnil, List.append_nil]

end Total

/-- What has been charged by the time a run is at `p`, having obtained the completions. -/
structure Charged (budget : Budget) (s₀ : Sys W U E) (cs : List Completion) (p : Point)
    (s : Sys W U E) : Prop where
  options : s.self.options = s₀.self.options
  cost : ∀ x ∈ p.cost, x + price s₀.self.options.pricing p.uncharged
    = total (price s₀.self.options.pricing) (chores cs)
  prompt : s.self.telemetry.prompt_tokens + .ofNat p.uncharged.1
    = s₀.self.telemetry.prompt_tokens + .ofNat (total Prod.fst (chores cs))
  completion : s.self.telemetry.completion_tokens + .ofNat p.uncharged.2
    = s₀.self.telemetry.completion_tokens + .ofNat (total Prod.snd (chores cs))
  capped : budget.active → 0 < budget.max_cost → p.inLoop → ∀ x ∈ p.cost, x < budget.max_cost

theorem charged_start (s : Sys W U E) : Charged budget s [] .start s where
  options := rfl
  cost := fun x hx => by
    cases hx
    simp [price, Point.uncharged, total, chores]
  prompt := rfl
  completion := rfl
  capped := fun _ hmax _ x hx => by
    cases hx
    exact hmax

theorem Point.uncharged_of_free : ∀ {p : Point}, p.free = true → p.uncharged = (0, 0)
  | answered _ _ (.error _), _ => rfl
  | start, _ | head _, _ | reviewing _ _ _ _, _ | reviewed _ _ _ _ _, _ | calling _ _ _, _
  | called _ _ _ _, _ | observing _, _ | leaving _, _ | ended _, _ => rfl

theorem Point.charges_of_free : ∀ {p : Point}, p.free = true → p.charges = false
  | answered _ _ (.error _), _ => rfl
  | start, _ | head _, _ | reviewing _ _ _ _, _ | reviewed _ _ _ _ _, _ | calling _ _ _, _
  | called _ _ _ _, _ | observing _, _ | leaving _, _ | ended _, _ => rfl

theorem uncharged_exec {p : Point} (hp : p.charges = false) {s s' : Sys W U E}
    {r : Except Exn Point} (h : (p.block M task budget).exec s = (r, s')) :
    s'.self.options = s.self.options
      ∧ s'.self.telemetry.prompt_tokens = s.self.telemetry.prompt_tokens
      ∧ s'.self.telemetry.completion_tokens = s.self.telemetry.completion_tokens :=
  ⟨(steady_uncharged (f := Core.options) (fun _ _ => rfl) (fun _ _ => rfl) hp).exec h,
    (steady_uncharged (f := Core.prompt_tokens) (fun _ _ => rfl) (fun _ _ => rfl) hp).exec h,
    (steady_uncharged (f := Core.completion_tokens) (fun _ _ => rfl) (fun _ _ => rfl) hp).exec h⟩

section Step

variable {s₀ s s' : Sys W U E} {cs : List Completion} {q : Point}

theorem charged_free {p : Point} (hs : Charged budget s₀ cs p s) (hfree : p.free = true)
    (hfinal : p.final = false) (h : (p.block M task budget).exec s = (.ok q, s')) :
    Charged budget s₀ (cs ++ q.obtained.toList) q s' := by
  obtain ⟨hoptions, hprompt, hcompletion⟩ := uncharged_exec (Point.charges_of_free hfree) h
  have hq := (Point.next_block p hfinal s q s' h).free hfree
  have hp := Point.uncharged_of_free hfree
  have hobtained : ∀ c ∈ q.obtained.toList, c.role = .Decision := fun c hc =>
    hq.obtained c (Option.mem_toList.1 hc)
  constructor
  · exact hoptions.trans hs.options
  · intro x hx
    rw [hq.uncharged, total_chores_append cs hobtained, ← hp]
    exact hs.cost x (hq.cost x hx)
  · rw [hq.uncharged, hprompt, total_chores_append cs hobtained, ← hp]
    exact hs.prompt
  · rw [hq.uncharged, hcompletion, total_chores_append cs hobtained, ← hp]
    exact hs.completion
  · exact fun hactive hmax hin x hx => hs.capped hactive hmax (hq.inLoop hin) x (hq.cost x hx)

theorem charged_asking {l : Loop} (hs : Charged budget s₀ cs (.asking l) s)
    (h : ((Point.asking l).block M task budget).exec s = (.ok q, s')) :
    Charged budget s₀ (cs ++ q.obtained.toList) q s' := by
  obtain ⟨hoptions, hprompt, hcompletion⟩ := uncharged_exec rfl h
  obtain ⟨⟨tier, response⟩, s₁, -, hq⟩ := Prog.exec_bind_eq_ok.1 h
  cases hq
  have htotal : ∀ {A : Type} [AddMonoid A] (f : ℕ × ℕ → A),
      total f (chores (cs ++ [Completion.mk .Chore tier response]))
        = total f (chores cs) + f (Completion.mk .Chore tier response).tokens := fun f => by
    rw [chores, List.filter_append, total_append, ← chores]
    simp [total]
  constructor
  · exact hoptions.trans hs.options
  · intro x hx
    obtain rfl := Option.some.inj hx
    refine Eq.trans ?_ (htotal _).symm
    rw [← hs.cost l.result.cost rfl, show (Point.asking l).uncharged = (0, 0) from rfl, price_zero,
      add_zero]
    rfl
  · refine Eq.trans ?_ (congrArg (fun n => s₀.self.telemetry.prompt_tokens + .ofNat n)
      (htotal Prod.fst).symm)
    rw [UInt64.ofNat_add, ← UInt64.add_assoc, ← hs.prompt, hprompt]
    exact congrArg (· + _) (UInt64.add_zero _).symm
  · refine Eq.trans ?_ (congrArg (fun n => s₀.self.telemetry.completion_tokens + .ofNat n)
      (htotal Prod.snd).symm)
    rw [UInt64.ofNat_add, ← UInt64.add_assoc, ← hs.completion, hcompletion]
    exact congrArg (· + _) (UInt64.add_zero _).symm
  · exact fun hactive hmax _ x hx => hs.capped hactive hmax rfl x hx

theorem lt_of_not_exhausted {cost : ℚ} (h : budget_exhausted budget cost = none)
    (hactive : budget.active) (hmax : 0 < budget.max_cost) : cost < budget.max_cost := by
  by_contra hle
  simp [budget_exhausted, hactive, hmax, not_lt.1 hle] at h

theorem charged_answered {l : Loop} {chosen_tier : Tier} {resp : ModelResponse}
    (hs : Charged budget s₀ cs (.answered l chosen_tier (.ok resp)) s)
    (hreports : (Completion.mk .Chore chosen_tier (.ok resp)).reports)
    (h : ((Point.answered l chosen_tier (.ok resp)).block M task budget).exec s = (.ok q, s')) :
    Charged budget s₀ (cs ++ q.obtained.toList) q s' := by
  obtain ⟨t, ht, hlt₁, hlt₂⟩ := Completion.exists_of_reports hreports
  obtain ⟨hq, hoptions, hprompt, hcompletion⟩ := charges_answered ht hlt₁ hlt₂ h
  have htokens : (Point.answered l chosen_tier (.ok resp)).uncharged = t := by
    simp [Point.uncharged, Completion.tokens, ht]
  rw [hq.obtained, Option.toList_none, List.append_nil]
  rw [hs.options] at hq
  constructor
  · exact hoptions.trans hs.options
  · intro x hx
    rw [hq.uncharged, price_zero, add_zero, hq.cost x hx, ← htokens]
    exact hs.cost l.result.cost rfl
  · rw [hq.uncharged, ← hs.prompt, hprompt, htokens]
    exact UInt64.add_zero _
  · rw [hq.uncharged, ← hs.completion, hcompletion, htokens]
    exact UInt64.add_zero _
  · intro hactive hmax hin x hx
    rw [hq.cost x hx]
    exact lt_of_not_exhausted (hq.inLoop hin) hactive hmax

end Step

/-- A block charges what was to be charged, and leaves the completion that it obtains to be. -/
theorem charged_block {s₀ s s' : Sys W U E} {cs : List Completion} {p q : Point}
    (hs : Charged budget s₀ cs p s) (hreports : ∀ c ∈ p.obtained, c.reports)
    (hfinal : p.final = false) (h : (p.block M task budget).exec s = (.ok q, s')) :
    Charged budget s₀ (cs ++ q.obtained.toList) q s' := by
  by_cases hfree : p.free
  · exact charged_free hs hfree hfinal h
  · cases p with
    | asking l => exact charged_asking hs h
    | answered l chosen_tier response =>
      cases response with
      | error err => exact (hfree rfl).elim
      | ok resp => exact charged_answered hs (hreports _ rfl) h
    | _ => exact (hfree rfl).elim

/-- All along a run the chore completions have been charged, but for one that has just come in. -/
theorem charged_along {s : Sys W U E} {ms : List (Config W U E × Config W U E)}
    (hms : ms <+: moves M task budget s) (hreports : ∀ c ∈ completions ms, c.reports) {p : Point}
    (hp : (Blocks.stop (.ok .start, s) ms).1 = .ok p) :
    Charged budget s (completions ms) p (Blocks.stop (.ok .start, s) ms).2 := by
  refine (Blocks.along (control M task budget)
    (Q := fun ms d => ∀ p, d.1 = .ok p → (∀ c ∈ p.obtained, c ∈ completions ms)
      ∧ ((∀ c ∈ completions ms, c.reports) → Charged budget s (completions ms) p d.2))
    ?_ ?_ hms p hp).2 hreports
  · intro p hp
    cases hp
    exact ⟨nofun, fun _ => charged_start s⟩
  · intro ms d d' hQ hadvance q hq
    obtain ⟨_ | p, s₁⟩ := d
    · cases hadvance
    obtain ⟨_ | q', s₂⟩ := d'
    · cases hq
    cases hq
    obtain ⟨hfinal, hexec⟩ := exec_of_advance hadvance
    obtain ⟨hobtained, hcharged⟩ := hQ p rfl
    rw [completions_snoc]
    refine ⟨fun c hc => List.mem_append_right _ (Option.mem_toList.2 hc), fun h => ?_⟩
    have hbefore : ∀ c ∈ completions ms, c.reports := fun c hc => h c (List.mem_append_left _ hc)
    exact charged_block (hcharged hbefore) (fun c hc => hbefore c (hobtained c hc)) hfinal hexec

/-- The decisions that may still be asked for. -/
def Point.reviews (budget : Budget) : Point → ℕ
  | start => (max_turns budget).toNat
  | asking l | answered l _ _ | reviewing l _ _ _ => l.remaining + 1
  | head l | reviewed l _ _ _ _ | calling l _ _ | called l _ _ _ | observing l => l.remaining
  | leaving _ | ended _ => 0

def decisions (cs : List Completion) : List Completion := cs.filter fun c => c.role == .Decision

theorem Point.Next.reviews_le {p q : Point} (h : Point.Next M task budget p q) :
    (decisions q.obtained.toList).length + q.reviews budget ≤ p.reviews budget := by
  cases h with
  | turn h => simp [reviews, obtained, decisions, h]
  | review => simp [reviews, obtained, decisions, Nat.add_comm]
  | _ => simp [reviews, obtained, decisions]

/-- The decisions that may still be asked for from a configuration on. -/
def reviewsIn (budget : Budget) (c : Config W U E) : ℕ :=
  match c.1 with
  | .ok p => p.reviews budget
  | .error _ => 0

theorem decisions_along {s : Sys W U E} {ms : List (Config W U E × Config W U E)}
    (hms : ms <+: moves M task budget s) :
    (decisions (completions ms)).length + reviewsIn budget (Blocks.stop (.ok .start, s) ms)
      ≤ (max_turns budget).toNat := by
  refine Blocks.along (control M task budget)
    (Q := fun ms d => (decisions (completions ms)).length + reviewsIn budget d
      ≤ (max_turns budget).toNat) ?_ ?_ hms
  · exact (Nat.zero_add _).le
  · intro ms d d' hQ hadvance
    obtain ⟨_ | p, s₁⟩ := d
    · cases hadvance
    have hbefore : (decisions (completions ms)).length + p.reviews budget
        ≤ (max_turns budget).toNat := hQ
    rw [completions_snoc, decisions, List.filter_append, List.length_append, ← decisions]
    obtain ⟨_ | q, s₂⟩ := d'
    · simp only [completionOf, Option.toList_none, List.filter_nil, List.length_nil, reviewsIn]
      omega
    · have hq := (next_of_advance hadvance).reviews_le
      simp only [completionOf, reviewsIn]
      rw [← decisions]
      omega

/-- A run asks for at most one decision in a turn. -/
theorem length_decisions_lt (M : Machine W U) (task : Str) (budget : Budget) (s : Sys W U E) :
    (decisions (completions (moves M task budget s))).length < 2 ^ 32 := by
  have hend := decisions_along (List.prefix_refl (moves M task budget s))
  have hlt := UInt32.toNat_lt (max_turns budget)
  omega

section Sums

variable {A : Type} [AddMonoid A] {f : ℕ × ℕ → A}

theorem total_eq_chores (hf : f (0, 0) = 0) :
    ∀ {cs : List Completion}, (∀ c ∈ cs, c.role = .Decision → c.tokens = (0, 0)) →
      total f cs = total f (chores cs)
  | [], _ => rfl
  | c :: cs, h => by
    have ih := total_eq_chores hf fun c' hc' => h c' (List.mem_cons_of_mem c hc')
    rcases hrole : c.role with _ | _
    · simp [total, chores, hrole] at ih ⊢
      rw [ih]
    · have hzero := h c List.mem_cons_self hrole
      simp [total, chores, hrole, hzero, hf] at ih ⊢
      exact ih

end Sums

theorem total_eq_add (f : ℕ × ℕ → ℕ) : ∀ cs : List Completion,
    total f cs = total f (chores cs) + total f (decisions cs)
  | [] => rfl
  | c :: cs => by
    have ih := total_eq_add f cs
    rcases hrole : c.role with _ | _ <;>
    · simp [total, chores, decisions, hrole] at ih ⊢
      omega

/-- A counter that has grown by less than the sum shows that less has been reported. -/
theorem total_eq_zero {f : ℕ × ℕ → ℕ} {cs : List Completion} (hlength : cs.length < 2 ^ 32)
    (hlt : ∀ c ∈ cs, f c.tokens < 2 ^ 32) {n : UInt64} {k : ℕ}
    (h : n + .ofNat k = n + .ofNat (k + total f cs)) : ∀ c ∈ cs, f c.tokens = 0 := by
  have hle : total f cs ≤ cs.length * (2 ^ 32 - 1) := by
    have hsum := List.sum_le_card_nsmul (cs.map fun c => f c.tokens) (2 ^ 32 - 1) fun n hn => by
      obtain ⟨c, hc, rfl⟩ := List.mem_map.1 hn
      have := hlt c hc
      omega
    simpa [total] using hsum
  have hzero : total f cs = 0 := by
    have hmod := congrArg UInt64.toNat h
    simp only [UInt64.toNat_add, UInt64.toNat_ofNat'] at hmod
    omega
  exact fun c hc => List.sum_eq_zero_iff_forall_eq_nat.1 hzero _ (List.mem_map_of_mem hc)

/-- If the chores of a run report as much as all its completions, the decisions report nothing. -/
theorem tokens_eq_zero {s : Sys W U E} (f : ℕ × ℕ → ℕ) (n : UInt64)
    (hlt : ∀ c ∈ completions (moves M task budget s), f c.tokens < 2 ^ 32)
    (h : n + .ofNat (total f (chores (completions (moves M task budget s))))
      = n + .ofNat (total f (completions (moves M task budget s)))) {c : Completion}
    (hc : c ∈ completions (moves M task budget s)) (hrole : c.role = .Decision) :
    f c.tokens = 0 := by
  rw [total_eq_add f (completions (moves M task budget s))] at h
  have hdecision : c ∈ decisions (completions (moves M task budget s)) :=
    List.mem_filter.2 ⟨hc, by simp [hrole]⟩
  refine total_eq_zero (length_decisions_lt M task budget s) (fun c' hc' => ?_) h c hdecision
  exact hlt c' (List.mem_of_mem_filter hc')

/-- Where a run spends, what its chores have reported is below the cap. -/
theorem chores_lt_cap {s : Sys W U E} {before after : List (Config W U E × Config W U E)}
    {m : Config W U E × Config W U E} (hms : moves M task budget s = before ++ m :: after)
    (hreports : ∀ c ∈ completions before, c.reports) {p : Point} (hp : m.1.1 = .ok p)
    (hspends : p.spends = true) (hactive : budget.active) (hmax : 0 < budget.max_cost) :
    total (price s.self.options.pricing) (chores (completions before)) < budget.max_cost := by
  have hm := (Blocks.advance_stop _ hms).1
  have hcharged := charged_along ⟨m :: after, hms.symm⟩ hreports (p := p) (by rw [← hm, hp])
  obtain ⟨x, hx, hnone, hin⟩ := Point.of_spends hspends
  have hcost := hcharged.cost x hx
  rw [hnone, price_zero, add_zero] at hcost
  rw [← hcost]
  exact hcharged.capped hactive hmax hin x hx

/-- The cost and the counters of a run that returns cover its completions, and the cap holds,
exactly if its decisions report no tokens. -/
theorem accounted_iff {s s' : Sys W U E} {r : Result RunResult}
    (hrun : (run M task budget).exec s = (.ok r, s'))
    (hreports : ∀ c ∈ completions (moves M task budget s), c.reports) :
    Accounted budget s s' (moves M task budget s) r
      ↔ ∀ c ∈ completions (moves M task budget s), c.role = .Decision → c.tokens = (0, 0) := by
  have hstop := stop_moves hrun
  have hend := charged_along (List.prefix_refl _) hreports (p := .ended r) (by rw [hstop])
  rw [hstop] at hend
  constructor
  · intro h c hc hrole
    refine Prod.ext ?_ ?_
    · refine tokens_eq_zero Prod.fst s.self.telemetry.prompt_tokens
        (fun c hc => (Completion.tokens_lt (hreports c hc)).1) ?_ hc hrole
      rw [← hend.prompt, ← h.prompt]
      exact UInt64.add_zero _
    · refine tokens_eq_zero Prod.snd s.self.telemetry.completion_tokens
        (fun c hc => (Completion.tokens_lt (hreports c hc)).2) ?_ hc hrole
      rw [← hend.completion, ← h.completion]
      exact UInt64.add_zero _
  · intro hzero
    constructor
    · rintro result rfl
      rw [total_eq_chores (price_zero _) hzero, ← hend.cost result.cost rfl]
      exact (add_zero _).symm.trans (congrArg _ (price_zero _).symm)
    · rw [total_eq_chores rfl hzero, ← hend.prompt]
      exact (UInt64.add_zero _).symm
    · rw [total_eq_chores rfl hzero, ← hend.completion]
      exact (UInt64.add_zero _).symm
    · intro hactive hmax before m after hms ⟨p, hp, hspends⟩
      have hbefore : ∀ c ∈ completions before, c ∈ completions (moves M task budget s) :=
        fun c hc => by
          rw [hms, completions, List.filterMap_append]
          exact List.mem_append_left _ hc
      rw [total_eq_chores (price_zero _) fun c hc => hzero c (hbefore c hc)]
      exact chores_lt_cap hms (fun c hc => hreports c (hbefore c hc)) hp hspends hactive hmax

/-- The response with a usage report. -/
def withUsage (resp : ModelResponse) (prompt completion : ℕ) : ModelResponse :=
  match resp.raw with
  | .object fields =>
    { resp with
      raw := .object (Json.setField "usage"
        (.ofFields [("prompt_tokens", .number_unsigned prompt),
          ("completion_tokens", .number_unsigned completion)]) fields) }
  | _ => resp

def priced : OrchestratorOptions where
  pricing := { prompt_per_1k := 1, completion_per_1k := 2 }

def cappedBudget : Budget := { max_turns := 8, max_cost := 4, active := true }

/-- Only the chore reports tokens. -/
def choresReport : List ModelResponse :=
  [withUsage (proposal "list" "") 1000 500, answer "CONFIRM", withUsage (answer "done") 1000 0]

theorem accounted_choresReport :
    let M := scriptedMachine (.ofTable [])
    let s := scriptedStart priced choresReport
    ∃ r s', (run M "task" cappedBudget).exec s = (.ok r, s')
      ∧ Accounted cappedBudget s s' (moves M "task" cappedBudget s) r := by
  intro M s
  have hok : ((run M "task" cappedBudget).exec s).1.isOk := by decide +kernel
  rcases hrun : (run M "task" cappedBudget).exec s with ⟨e | r, s'⟩
  · rw [hrun] at hok
    cases hok
  · exact ⟨r, s', rfl, (accounted_iff hrun (by decide +kernel)).2 (by decide +kernel)⟩

/-- The decision reports what reaches the cap. -/
def decisionReports : List ModelResponse :=
  [proposal "list" "", withUsage (answer "CONFIRM") 4000 0, answer "done"]

/-- The run counts no token, and goes on to run the call and to ask again. -/
theorem decision_not_accounted :
    let M := scriptedMachine (.ofTable [])
    let s := scriptedStart priced decisionReports
    ∃ r s', (run M "task" cappedBudget).exec s = (.ok r, s')
      ∧ (∀ c ∈ completions (moves M "task" cappedBudget s), c.reports)
      ∧ ¬ Accounted cappedBudget s s' (moves M "task" cappedBudget s) r := by
  intro M s
  have hok : ((run M "task" cappedBudget).exec s).1.isOk := by decide +kernel
  have hcounted : ((run M "task" cappedBudget).exec s).2.self.telemetry.prompt_tokens
      ≠ 0 + .ofNat (total Prod.fst (completions (moves M "task" cappedBudget s))) := by
    decide +kernel
  rcases hrun : (run M "task" cappedBudget).exec s with ⟨e | r, s'⟩
  · rw [hrun] at hok
    cases hok
  · rw [hrun] at hcounted
    exact ⟨r, s', rfl, by decide +kernel, fun h => hcounted h.prompt⟩

end Orchestrator

end Praxis
