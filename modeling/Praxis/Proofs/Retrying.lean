import Praxis.Provider
import Mathlib.Data.Rat.Floor
import Mathlib.Tactic.Linarith

/-!
# Retries

`RetryingProvider` asks its provider until a result is decisive or the attempts are used up, and
sleeps between two attempts. The numbers of calls, sleeps, attempts and retries all follow from the
position of the first decisive result (`complete_calls`). The first sleep takes the initial backoff,
which nothing caps (`sleeps_capped_iff`).
-/

namespace Praxis

variable {E : Type}

/-- The provider with a count of its calls. -/
def Provider.counted (inner : Provider E) : Provider (E × ℕ) :=
  ⟨fun context env =>
    let answer := inner.complete context env.1
    (answer.1, answer.2, env.2 + 1)⟩

namespace RetryingProvider

/-- A result that is returned at once: a success, or an error that is not retried. -/
def decisive : Result ModelResponse → Bool
  | .ok _ => true
  | .error err => err.kind = .Validation ∨ err.kind = .Cancelled

/-- The position of the first decisive result, counted from one, or `max` if it comes later. -/
def callsNeeded (max : ℕ) (results : ℕ → Result ModelResponse) : ℕ :=
  ((List.range max).find? fun i => decisive (results i)).elim max (· + 1)

theorem callsNeeded_succ (max : ℕ) (results : ℕ → Result ModelResponse) :
    callsNeeded (max + 1) results =
      if decisive (results 0) ∨ max = 0 then 1
      else callsNeeded max (fun i => results (i + 1)) + 1 := by
  unfold callsNeeded
  rw [List.range_succ_eq_map, List.find?_cons, List.find?_map]
  by_cases hfirst : decisive (results 0) = true
  · simp [hfirst]
  · rw [Bool.not_eq_true] at hfirst
    simp only [hfirst, Bool.false_eq_true, false_or]
    split_ifs with hmax
    · simp [hmax]
    · have hlater : ((fun i => decisive (results i)) ∘ Nat.succ)
          = fun i => decisive (results (i + 1)) := rfl
      rw [hlater, Option.elim_map]
      cases (List.range max).find? fun i => decisive (results (i + 1)) <;> rfl

/-! ## Calls -/

variable {inner : Provider E} {context : Messages}

/-- The outcome of a `complete` that has called its provider `k` times and returns `result`. -/
structure Called (start : RetryingProvider (E × ℕ)) (k : ℕ) (result : Result ModelResponse)
    (env : E × ℕ)
    (out : Except Exn (Result ModelResponse) × RetryingProvider (E × ℕ) × (E × ℕ)) : Prop where
  returned : out.1 = .ok result
  env_eq : out.2.2 = env
  attempts_eq : out.2.1.attempts = start.attempts + .ofNat k
  retries_eq : out.2.1.retries = start.retries + .ofNat (k - 1)
  slept_eq : ∃ sleeps, out.2.1.slept = start.slept ++ sleeps ∧ sleeps.length = k - 1

theorem called_once {self : RetryingProvider (E × ℕ)} {result : Result ModelResponse}
    {env : E × ℕ} : Called self 1 result env (.ok result, self.countAttempt, env) where
  returned := rfl
  env_eq := rfl
  attempts_eq := rfl
  retries_eq := (UInt32.add_zero _).symm
  slept_eq := ⟨[], (List.append_nil _).symm, rfl⟩

theorem Called.after {self : RetryingProvider (E × ℕ)} {backoff : ℤ} {k : ℕ}
    {result : Result ModelResponse} {env : E × ℕ}
    {out : Except Exn (Result ModelResponse) × RetryingProvider (E × ℕ) × (E × ℕ)} (hk : 0 < k)
    (h : Called (self.countAttempt.backOff backoff) k result env out) :
    Called self (k + 1) result env out where
  returned := h.returned
  env_eq := h.env_eq
  attempts_eq := by
    refine h.attempts_eq.trans ?_
    rw [Nat.add_comm k 1, UInt32.ofNat_add, ← UInt32.add_assoc]
    rfl
  retries_eq := by
    refine h.retries_eq.trans ?_
    rw [show k + 1 - 1 = 1 + (k - 1) by omega, UInt32.ofNat_add, ← UInt32.add_assoc]
    rfl
  slept_eq := by
    obtain ⟨sleeps, hslept, hlength⟩ := h.slept_eq
    refine ⟨backoff :: sleeps, hslept.trans (List.append_assoc _ [backoff] _), ?_⟩
    rw [List.length_cons, hlength]
    omega

theorem callsNeeded_pos {max : ℕ} (hmax : 0 < max) (results : ℕ → Result ModelResponse) :
    0 < callsNeeded max results := by
  obtain ⟨n, rfl⟩ := Nat.exists_eq_succ_of_ne_zero hmax.ne'
  rw [callsNeeded_succ]
  split_ifs <;> omega

theorem completeLoop_called :
    ∀ (attempts : ℕ), 0 < attempts → ∀ {results : ℕ → Result ModelResponse} {envs : ℕ → E}
      (backoff : ℤ) (last : Result ModelResponse) (self : RetryingProvider (E × ℕ)) (calls : ℕ),
      (∀ i < attempts, inner.complete context (envs i) = (.ok (results i), envs (i + 1))) →
      Called self (callsNeeded attempts results) (results (callsNeeded attempts results - 1))
        (envs (callsNeeded attempts results), calls + callsNeeded attempts results)
        (completeLoop inner.counted context attempts backoff last self (envs 0, calls))
  | attempts + 1, _, results, envs, backoff, last, self, calls, h => by
    have hfirst : inner.counted.complete context (envs 0, calls)
        = (.ok (results 0), envs 1, calls + 1) := by
      unfold Provider.counted
      dsimp only
      rw [h 0 (Nat.succ_pos attempts)]
    rw [completeLoop, hfirst, callsNeeded_succ]
    rcases hresult : results 0 with err | response
    · dsimp only
      have hkind : (err.kind = .Validation ∨ err.kind = .Cancelled ∨ attempts = 0)
          = (decisive (.error err) = true ∨ attempts = 0) := by
        simp [decisive, or_assoc]
      simp only [hkind]
      split_ifs with hlast
      · rw [Nat.sub_self, hresult]
        exact called_once
      · have hpos : 0 < attempts := by omega
        have hk := callsNeeded_pos hpos fun i => results (i + 1)
        have hrest := completeLoop_called attempts hpos (nextBackoff self.policy backoff)
          (.error err) (self.countAttempt.backOff backoff) (calls + 1)
          fun i hi => h (i + 1) (Nat.succ_lt_succ hi)
        rw [Nat.sub_add_cancel hk, Nat.add_assoc, Nat.add_comm 1] at hrest
        exact hrest.after hk
    · have hdecisive : decisive (.ok response) = true ∨ attempts = 0 := .inl rfl
      rw [if_pos hdecisive, Nat.sub_self, hresult]
      exact called_once

/-- `complete` calls its provider until the first decisive result, but at most `max_attempts` times,
returns the last result, sleeps between the calls and counts them. -/
theorem complete_calls {self : RetryingProvider (E × ℕ)} (hinner : self.inner = some inner.counted)
    (hmax : 1 ≤ self.policy.max_attempts) {results : ℕ → Result ModelResponse} {envs : ℕ → E}
    (h : ∀ i < self.policy.max_attempts.toNat,
      inner.complete context (envs i) = (.ok (results i), envs (i + 1))) (calls : ℕ) :
    let k := callsNeeded self.policy.max_attempts.toNat results
    Called self k (results (k - 1)) (envs k, calls + k)
      (self.complete context (envs 0, calls)) := by
  unfold complete
  rw [hinner]
  exact completeLoop_called _ (UInt32.le_iff_toNat_le.1 hmax) _ _ self calls h

/-- Fails twice and then succeeds; the environment is the number of calls. -/
def flaky : Provider ℕ :=
  ⟨fun _ n => (.ok (if n < 2 then .error { kind := .ProviderFailure } else .ok {}), n + 1)⟩

def flakyRetrying : RetryingProvider (ℕ × ℕ) where
  inner := some flaky.counted
  policy := { max_attempts := 4 }
  attempts := 4294967295

theorem complete_calls_flaky :
    Called flakyRetrying 3 (.ok {}) (3, 3) (flakyRetrying.complete [] (0, 0)) := by
  have hresults : ∀ i < flakyRetrying.policy.max_attempts.toNat, flaky.complete [] (id i)
      = (.ok ((fun n => if n < 2 then .error { kind := .ProviderFailure } else .ok {}) i),
        id (i + 1)) := fun i _ => rfl
  exact complete_calls rfl (by decide) hresults 0

/-! ## Sleeps -/

/-- The durations that one `complete` sleeps. -/
def sleeps (self : RetryingProvider E) (context : Messages) (env : E) : List ℤ :=
  ({ self with slept := [] }.complete context env).2.1.slept

/-- An answer after which `complete` tries again, if it may. -/
def retried : Except Exn (Result ModelResponse) → Bool
  | .ok result => !decisive result
  | .error _ => false

theorem nextBackoff_mem {policy : RetryPolicy} {backoff : ℤ} (hzero : 0 ≤ backoff)
    (hmultiplier : 1 ≤ policy.backoff_multiplier) (hcap : backoff ≤ policy.max_backoff) :
    backoff ≤ nextBackoff policy backoff ∧ nextBackoff policy backoff ≤ policy.max_backoff := by
  have hq : (0 : ℚ) ≤ backoff := Int.cast_nonneg hzero
  have hgrow : (backoff : ℚ) ≤ backoff * policy.backoff_multiplier :=
    le_mul_of_one_le_right hq hmultiplier
  unfold nextBackoff
  dsimp only
  rw [if_pos (hq.trans hgrow)]
  exact ⟨le_min (Int.le_floor.2 hgrow) hcap, min_le_right _ _⟩

/-- Where the first backoff is within the cap, all sleeps are, and they grow. -/
theorem completeLoop_sleeps :
    ∀ (attempts : ℕ) (backoff : ℤ) (last : Result ModelResponse) (self : RetryingProvider E)
      (env : E), 0 ≤ backoff → 1 ≤ self.policy.backoff_multiplier →
      backoff ≤ self.policy.max_backoff →
      ∃ more, (completeLoop inner context attempts backoff last self env).2.1.slept
          = self.slept ++ more
        ∧ more.Pairwise (· ≤ ·) ∧ ∀ b ∈ more, backoff ≤ b ∧ b ≤ self.policy.max_backoff
  | 0, _, _, self, _, _, _, _ => ⟨[], (List.append_nil _).symm, .nil, List.forall_mem_nil _⟩
  | attempts + 1, backoff, last, self, env, hzero, hmultiplier, hcap => by
    unfold completeLoop
    split
    · exact ⟨[], (List.append_nil _).symm, .nil, List.forall_mem_nil _⟩
    · exact ⟨[], (List.append_nil _).symm, .nil, List.forall_mem_nil _⟩
    · split_ifs
      · exact ⟨[], (List.append_nil _).symm, .nil, List.forall_mem_nil _⟩
      · next err env' _ _ =>
        obtain ⟨hle, hnext⟩ := nextBackoff_mem hzero hmultiplier hcap
        obtain ⟨more, hslept, hsorted, hmore⟩ := completeLoop_sleeps attempts
          (nextBackoff self.policy backoff) (.error err) (self.countAttempt.backOff backoff) env'
          (hzero.trans hle) hmultiplier hnext
        refine ⟨backoff :: more, hslept.trans (List.append_assoc _ [backoff] _),
          List.pairwise_cons.2 ⟨fun b hb => hle.trans (hmore b hb).1, hsorted⟩, ?_⟩
        rintro b (_ | ⟨_, hb⟩)
        · exact ⟨le_rfl, hcap⟩
        · exact ⟨hle.trans (hmore b hb).1, (hmore b hb).2⟩

theorem slept_kept :
    ∀ (attempts : ℕ) (backoff : ℤ) (last : Result ModelResponse) (self : RetryingProvider E)
      (env : E),
      self.slept <+: (completeLoop inner context attempts backoff last self env).2.1.slept
  | 0, _, _, _, _ => List.prefix_rfl
  | attempts + 1, backoff, last, self, env => by
    unfold completeLoop
    split
    · exact List.prefix_rfl
    · exact List.prefix_rfl
    · split_ifs
      · exact List.prefix_rfl
      · next err env' _ _ =>
        exact (List.prefix_append _ [backoff]).trans
          (slept_kept attempts _ (.error err) (self.countAttempt.backOff backoff) env')

theorem initial_mem_sleeps {self : RetryingProvider E} {env : E} (hinner : self.inner = some inner)
    (hmax : 1 < self.policy.max_attempts)
    (hretried : retried (inner.complete context env).1 = true) :
    self.policy.initial_backoff ∈ self.sleeps context env := by
  have hnat : 1 < self.policy.max_attempts.toNat := UInt32.lt_iff_toNat_lt.1 hmax
  obtain ⟨attempts, hattempts⟩ := Nat.exists_eq_add_of_lt hnat
  rcases hfirst : inner.complete context env with ⟨answer, env'⟩
  rw [hfirst] at hretried
  rcases answer with e | err | response
  · cases hretried
  · have hkind : ¬ (err.kind = .Validation ∨ err.kind = .Cancelled) := by
      simpa [retried, decisive] using hretried
    have hprefix := @slept_kept E inner context (attempts + 1)
      (nextBackoff self.policy self.policy.initial_backoff) (.error err)
      (({ self with slept := [] } : RetryingProvider E).countAttempt.backOff
        self.policy.initial_backoff) env'
    have hsleeps : self.sleeps context env = (completeLoop inner context (attempts + 1)
        (nextBackoff self.policy self.policy.initial_backoff) (.error err)
        (({ self with slept := [] } : RetryingProvider E).countAttempt.backOff
          self.policy.initial_backoff) env').2.1.slept := by
      unfold sleeps complete
      dsimp only
      rw [hinner, hattempts, show 1 + attempts + 1 = attempts + 1 + 1 by omega]
      dsimp only
      rw [completeLoop, hfirst]
      dsimp only
      rw [if_neg (by simpa using hkind)]
    rw [hsleeps]
    exact hprefix.subset (List.mem_singleton_self _)
  · cases hretried

theorem sleeps_eq_nil {self : RetryingProvider E} {env : E}
    (h : self.policy.max_attempts ≤ 1
      ∨ ∀ inner, self.inner = some inner → ¬ retried (inner.complete context env).1) :
    self.sleeps context env = [] := by
  unfold sleeps complete
  dsimp only
  split
  · rfl
  · next inner hinner =>
    rcases hattempts : self.policy.max_attempts.toNat with _ | attempts
    · rfl
    · rw [completeLoop]
      split
      · rfl
      · rfl
      · next err env' hfirst =>
        refine congrArg (fun out : Except Exn (Result ModelResponse) × RetryingProvider E × E =>
          out.2.1.slept) (if_pos ?_)
        rcases h with h | h
        · have hnat : self.policy.max_attempts.toNat ≤ 1 := UInt32.le_iff_toNat_le.1 h
          exact .inr (.inr (by omega))
        · have hnot := h inner hinner
          rw [hfirst] at hnot
          simp only [retried, decisive, Bool.not_eq_true', decide_eq_false_iff_not, not_not] at hnot
          rcases hnot with hkind | hkind
          · exact .inl hkind
          · exact .inr (.inl hkind)

/-- The sleeps of one `complete` never get shorter and none is longer than the cap, if and only if
the initial backoff is within the cap or nothing is slept at all. -/
theorem sleeps_capped_iff {self : RetryingProvider E} (context : Messages) (env : E)
    (hinitial : 0 ≤ self.policy.initial_backoff)
    (hmultiplier : 1 ≤ self.policy.backoff_multiplier) :
    ((self.sleeps context env).Pairwise (· ≤ ·)
        ∧ ∀ b ∈ self.sleeps context env, b ≤ self.policy.max_backoff) ↔
      self.policy.initial_backoff ≤ self.policy.max_backoff ∨ self.policy.max_attempts ≤ 1
        ∨ ∀ inner, self.inner = some inner → ¬ retried (inner.complete context env).1 := by
  constructor
  · rintro ⟨-, hcap⟩
    by_contra hnot
    obtain ⟨hinit, hnot⟩ := not_or.1 hnot
    obtain ⟨hmax, hnot⟩ := not_or.1 hnot
    push Not at hnot
    obtain ⟨inner, hinner, hretried⟩ := hnot
    exact hinit (hcap _ (initial_mem_sleeps hinner (UInt32.not_le.1 hmax) hretried))
  · rintro (h | h)
    · unfold sleeps complete
      dsimp only
      split
      · exact ⟨.nil, List.forall_mem_nil _⟩
      · next inner hinner =>
        obtain ⟨more, hslept, hsorted, hmore⟩ := @completeLoop_sleeps E inner context
          self.policy.max_attempts.toNat self.policy.initial_backoff
          (.error { kind := .Internal, message := "default-constructed Result" })
          { self with slept := [] } env hinitial hmultiplier h
        rw [hslept]
        exact ⟨hsorted, fun b hb => (hmore b hb).2⟩
    · rw [sleeps_eq_nil h]
      exact ⟨.nil, List.forall_mem_nil _⟩

def hasty : RetryingProvider ℕ where
  inner := some flaky
  policy := { max_attempts := 2, initial_backoff := 10, max_backoff := 5 }

theorem not_capped_hasty :
    ¬ ((hasty.sleeps [] 0).Pairwise (· ≤ ·)
      ∧ ∀ b ∈ hasty.sleeps [] 0, b ≤ hasty.policy.max_backoff) := by
  have hsleeps : hasty.sleeps [] 0 = [10] := by decide +kernel
  rw [hsleeps]
  rintro ⟨-, hcap⟩
  exact absurd (hcap 10 (List.mem_singleton_self 10)) (by decide)

def patient : RetryingProvider ℕ where
  inner := some flaky
  policy := { max_attempts := 4, initial_backoff := 2, max_backoff := 5 }

theorem capped_patient :
    (patient.sleeps [] 0).Pairwise (· ≤ ·)
      ∧ ∀ b ∈ patient.sleeps [] 0, b ≤ patient.policy.max_backoff :=
  (sleeps_capped_iff [] 0 (by decide) (by norm_num [patient])).2 (.inl (by decide))

end RetryingProvider

end Praxis
