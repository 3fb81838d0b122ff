import Praxis.Proofs.Tally
import Mathlib.Tactic.Linarith

/-!
# Routing by the counts

Where chores go depends on the latch, which a failure may set, and on the small tier's counters,
which begin anew with each `clear_pin`. The answers of a cascade are a formula in the numbers of
failures, outcomes and diverged outcomes since the last clear, in whatever order they were recorded
(`answers_of_counts`).
-/

namespace Praxis

namespace CascadeOp

def isOutcome : CascadeOp → Bool
  | record_outcome _ _ => true
  | _ => false

/-- The records since the last `clear_pin`. -/
def sinceClear (ops : List CascadeOp) : List CascadeOp :=
  (ops.reverse.takeWhile (· ≠ clear_pin)).reverse

def failures (tier : Tier) (ops : List CascadeOp) : ℕ := ops.count (record_failure tier)

def diverged (tier : Tier) (ops : List CascadeOp) : ℕ := ops.count (record_outcome tier true)

def outcomes (tier : Tier) (ops : List CascadeOp) : ℕ :=
  ops.count (record_outcome tier true) + ops.count (record_outcome tier false)

theorem sinceClear_concat (ops : List CascadeOp) (op : CascadeOp) :
    sinceClear (ops ++ [op]) = if op = clear_pin then [] else sinceClear ops ++ [op] := by
  unfold sinceClear
  rw [List.reverse_append, List.reverse_singleton, List.singleton_append, List.takeWhile_cons]
  split_ifs with h <;> simp_all

theorem diverged_le (tier : Tier) (ops : List CascadeOp) :
    diverged tier ops ≤ outcomes tier ops := Nat.le_add_right _ _

theorem outcomes_le (tier : Tier) (ops : List CascadeOp) :
    outcomes tier ops ≤ ops.countP isOutcome := by
  unfold outcomes
  induction ops with
  | nil => exact le_rfl
  | cons op ops ih =>
    rw [List.count_cons, List.count_cons, List.countP_cons]
    cases op with
    | record_outcome t d => cases t <;> cases d <;> cases tier <;> simp [isOutcome] <;> omega
    | record_failure t => simpa [isOutcome] using ih
    | clear_pin => simpa [isOutcome] using ih

variable (records : List CascadeOp) (tier tier' : Tier) (diverges : Bool)

theorem outcomes_outcome :
    outcomes tier' (records ++ [record_outcome tier diverges])
      = outcomes tier' records + if tier = tier' then 1 else 0 := by
  unfold outcomes
  cases tier <;> cases tier' <;> cases diverges <;> simp [List.count_append] <;> omega

theorem diverged_outcome :
    diverged tier' (records ++ [record_outcome tier diverges])
      = diverged tier' records + if tier = tier' ∧ diverges then 1 else 0 := by
  unfold diverged
  cases tier <;> cases tier' <;> cases diverges <;> simp [List.count_append]

theorem failures_outcome :
    failures tier' (records ++ [record_outcome tier diverges]) = failures tier' records := by
  simp [failures, List.count_append]

theorem outcomes_failure :
    outcomes tier' (records ++ [record_failure tier]) = outcomes tier' records := by
  simp [outcomes, List.count_append]

theorem diverged_failure :
    diverged tier' (records ++ [record_failure tier]) = diverged tier' records := by
  simp [diverged, List.count_append]

theorem failures_failure :
    failures tier' (records ++ [record_failure tier])
      = failures tier' records + if tier = tier' then 1 else 0 := by
  unfold failures
  cases tier <;> cases tier' <;> simp [List.count_append]

end CascadeOp

open CascadeOp

namespace ModelCascade

variable {m : UInt32} {t : ℚ} {cascade : ModelCascade} {ops : List CascadeOp}

/-- A new cascade with a failure limit and a threshold. -/
def configured (m : UInt32) (t : ℚ) : Except Exn ModelCascade :=
  (({} : ModelCascade).set_max_failures_before_pin m).set_missing_upgrade_threshold t

/-- A cascade that has been told the records, none of them a clear. -/
structure Told (m : UInt32) (t : ℚ) (records : List CascadeOp) (cascade : ModelCascade) : Prop where
  limit : cascade.max_failures_before_pin = m
  threshold : cascade.missing_upgrade_threshold = t
  state_eq : ∀ tier, cascade.state tier =
    ({} : TierState).grow (outcomes tier records) (diverged tier records) (failures tier records)
  latch : cascade.chore_pinned = decide (m.toNat ≤ failures .Small records)

theorem told_configured (hm : 1 ≤ m) (h : configured m t = .ok cascade) : Told m t [] cascade := by
  unfold configured set_missing_upgrade_threshold at h
  split_ifs at h
  cases h
  have hpos : 1 ≤ m.toNat := UInt32.le_iff_toNat_le.1 hm
  exact ⟨rfl, rfl, fun tier => rfl, (decide_eq_false (by simp [failures]; omega)).symm⟩

/-- The latch closes as the count of failures gets to the limit, which it does before it wraps. -/
theorem latch_failure (f : ℕ) :
    (decide (m.toNat ≤ f) || decide (m ≤ UInt32.ofNat (f + 1))) = decide (m.toNat ≤ f + 1) := by
  have hlt := m.toNat_lt
  by_cases h : m.toNat ≤ f
  · simp [h, Nat.le_succ_of_le h]
  · have hsize : f + 1 < 2 ^ 32 := by omega
    rw [decide_eq_false h, Bool.false_or, decide_eq_decide]
    exact UInt32.le_ofNat_iff hsize

theorem Told.apply {records : List CascadeOp} (hm : 1 ≤ m) (h : Told m t records cascade)
    (op : CascadeOp) :
    Told m t (if op = .clear_pin then [] else records ++ [op]) (op.apply cascade) := by
  cases op with
  | clear_pin =>
    have hpos : 1 ≤ m.toNat := UInt32.le_iff_toNat_le.1 hm
    exact ⟨h.limit, h.threshold, fun tier => rfl,
      (decide_eq_false (by simp [failures]; omega)).symm⟩
  | record_outcome tier diverges =>
    rw [if_neg (by simp)]
    refine ⟨h.limit, h.threshold, fun tier' => ?_, ?_⟩
    · refine (state_record_outcome cascade tier tier' diverges).trans ?_
      rw [outcomes_outcome, diverged_outcome, failures_outcome, h.state_eq]
      split_ifs <;> simp_all
    · rw [failures_outcome]
      exact h.latch
  | record_failure tier =>
    rw [if_neg (by simp)]
    refine ⟨h.limit, h.threshold, fun tier' => ?_, ?_⟩
    · refine (state_record_failure cascade tier tier').trans ?_
      rw [outcomes_failure, diverged_failure, failures_failure, h.state_eq]
      split_ifs <;> simp
    · have hcounter : (cascade.state tier).failures = UInt32.ofNat (failures tier records) := by
        rw [h.state_eq tier]
        exact UInt32.zero_add _
      have hlatch : (CascadeOp.apply cascade (.record_failure tier)).chore_pinned
          = (cascade.chore_pinned || (tier == .Small
            && decide (cascade.max_failures_before_pin ≤ (cascade.state tier).failures + 1))) := rfl
      rw [hlatch, h.latch, h.limit, hcounter, failures_failure]
      cases tier with
      | Small =>
        refine Eq.trans ?_ (latch_failure _)
        rw [UInt32.ofNat_add]
        rfl
      | Large => simp

def told (cascade : ModelCascade) (ops : List CascadeOp) : ModelCascade :=
  ops.foldl CascadeOp.apply cascade

theorem told_sinceClear (hm : 1 ≤ m) (h : configured m t = .ok cascade) (ops : List CascadeOp) :
    Told m t (sinceClear ops) (cascade.told ops) := by
  induction ops using List.reverseRecOn with
  | nil => exact told_configured hm h
  | append_singleton ops op ih =>
    rw [sinceClear_concat]
    refine Eq.mp ?_ (ih.apply hm op)
    rw [told, told, List.foldl_append]
    rfl

theorem route_for_chore_iff (cascade : ModelCascade) :
    cascade.route_for .Chore = .Large ↔ cascade.chore_pinned = true
      ∨ 0 < (cascade.state .Small).attempts
        ∧ cascade.missing_upgrade_threshold < cascade.divergence_rate .Small := by
  unfold route_for state
  rcases hlookup : cascade.tiers.lookup .Small with _ | st <;>
    cases cascade.chore_pinned <;> simp [hlookup]

theorem is_pinned_large_iff (cascade : ModelCascade) :
    cascade.is_pinned .Large = true ↔ cascade.chore_pinned = true
      ∧ 0 < (cascade.state .Small).attempts
        ∧ cascade.missing_upgrade_threshold < cascade.divergence_rate .Small := by
  unfold is_pinned state
  rcases hlookup : cascade.tiers.lookup .Small with _ | st
  · cases cascade.chore_pinned <;> simp [hlookup]
  · have hpos : 0 < st.attempts ↔ st.attempts ≠ 0 := UInt64.pos_iff_ne_zero
    cases cascade.chore_pinned <;> simp [hlookup, hpos]

theorem divergence_rate_eq (cascade : ModelCascade) (tier : Tier) :
    cascade.divergence_rate tier =
      ((cascade.state tier).divergences.toNat : ℚ) / (cascade.state tier).attempts.toNat := by
  unfold divergence_rate state
  rcases hlookup : cascade.tiers.lookup tier with _ | st
  · simp
  · by_cases hst : st.attempts = 0 <;> simp [hst]

variable {records records' : List CascadeOp} {cascade' : ModelCascade}

/-- With fewer than 2^64 outcomes the counters of outcomes have not wrapped. -/
theorem Told.counters (h : Told m t records cascade) (hfew : records.countP isOutcome < 2 ^ 64)
    (tier : Tier) :
    (cascade.state tier).attempts.toNat = outcomes tier records
      ∧ (cascade.state tier).divergences.toNat = diverged tier records := by
  have hle := outcomes_le tier records
  have hdiverged := diverged_le tier records
  rw [h.state_eq tier]
  constructor
  · refine (congrArg UInt64.toNat (UInt64.zero_add _)).trans ?_
    exact UInt64.toNat_ofNat_of_lt' (hle.trans_lt hfew)
  · refine (congrArg UInt64.toNat (UInt64.zero_add _)).trans ?_
    exact UInt64.toNat_ofNat_of_lt' ((hdiverged.trans hle).trans_lt hfew)

theorem Told.rate (h : Told m t records cascade) (hfew : records.countP isOutcome < 2 ^ 64)
    (tier : Tier) :
    cascade.divergence_rate tier = (diverged tier records : ℚ) / outcomes tier records := by
  obtain ⟨hattempts, hdivergences⟩ := h.counters hfew tier
  rw [divergence_rate_eq, hattempts, hdivergences]

theorem Told.upgrade (h : Told m t records cascade) (hfew : records.countP isOutcome < 2 ^ 64) :
    0 < (cascade.state .Small).attempts
        ∧ cascade.missing_upgrade_threshold < cascade.divergence_rate .Small ↔
      0 < outcomes .Small records ∧ t * outcomes .Small records < diverged .Small records := by
  rw [UInt64.lt_iff_toNat_lt, (h.counters hfew .Small).1, h.rate hfew, h.threshold]
  refine and_congr_right fun hpos => ?_
  have hpos : (0 : ℚ) < outcomes .Small records := Nat.cast_pos.2 hpos
  exact lt_div_iff₀ hpos

theorem Told.latched (h : Told m t records cascade) :
    cascade.chore_pinned = true ↔ m.toNat ≤ failures .Small records := by
  rw [h.latch, decide_eq_true_iff]

theorem Told.route_for_iff (h : Told m t records cascade)
    (hfew : records.countP isOutcome < 2 ^ 64) :
    cascade.route_for .Chore = .Large ↔ m.toNat ≤ failures .Small records
      ∨ 0 < outcomes .Small records ∧ t * outcomes .Small records < diverged .Small records := by
  rw [route_for_chore_iff, h.latched, h.upgrade hfew]

theorem Told.is_pinned_iff (h : Told m t records cascade)
    (hfew : records.countP isOutcome < 2 ^ 64) :
    cascade.is_pinned .Large = true ↔ m.toNat ≤ failures .Small records
      ∧ 0 < outcomes .Small records ∧ t * outcomes .Small records < diverged .Small records := by
  rw [is_pinned_large_iff, h.latched, h.upgrade hfew]

/-- Two cascades that were told the same records, in any order, answer alike. -/
theorem Told.perm (h : Told m t records cascade) (h' : Told m t records' cascade')
    (hperm : records'.Perm records) (hfew : records.countP isOutcome < 2 ^ 64)
    (role : Role) (tier : Tier) :
    cascade'.route_for role = cascade.route_for role
      ∧ cascade'.is_pinned tier = cascade.is_pinned tier
      ∧ cascade'.divergence_rate tier = cascade.divergence_rate tier := by
  have hfew' : records'.countP isOutcome < 2 ^ 64 := hperm.countP_eq isOutcome ▸ hfew
  have houtcomes : ∀ tier, outcomes tier records' = outcomes tier records := fun tier => by
    unfold outcomes
    rw [hperm.count_eq, hperm.count_eq]
  have hdiverged : ∀ tier, diverged tier records' = diverged tier records := fun tier =>
    hperm.count_eq _
  have hfailures : failures .Small records' = failures .Small records := hperm.count_eq _
  refine ⟨?_, ?_, by rw [h.rate hfew, h'.rate hfew', houtcomes, hdiverged]⟩
  · cases role with
    | Decision => rfl
    | Chore =>
      have hroute := (h.route_for_iff hfew).symm
      rw [← houtcomes, ← hdiverged, ← hfailures, ← h'.route_for_iff hfew'] at hroute
      cases hr : cascade.route_for .Chore <;> cases hr' : cascade'.route_for .Chore <;> simp_all
  · cases tier with
    | Small =>
      have hlatched := h.latched
      rw [← hfailures, ← h'.latched] at hlatched
      exact Bool.eq_iff_iff.2 hlatched.symm
    | Large =>
      have hpinned := h.is_pinned_iff hfew
      rw [← houtcomes, ← hdiverged, ← hfailures, ← h'.is_pinned_iff hfew'] at hpinned
      exact Bool.eq_iff_iff.2 hpinned.symm

/-- The answers of a cascade by the numbers of failures, outcomes and diverged outcomes since the
last clear. -/
theorem answers_of_counts (hm : 1 ≤ m) (h : configured m t = .ok cascade) {ops : List CascadeOp}
    (hfew : (sinceClear ops).countP isOutcome < 2 ^ 64) :
    ((cascade.told ops).route_for .Chore = .Large ↔
        m.toNat ≤ failures .Small (sinceClear ops)
          ∨ 0 < outcomes .Small (sinceClear ops)
            ∧ t * outcomes .Small (sinceClear ops) < diverged .Small (sinceClear ops))
      ∧ ((cascade.told ops).is_pinned .Small = true ↔
        m.toNat ≤ failures .Small (sinceClear ops))
      ∧ ((cascade.told ops).is_pinned .Large = true ↔
        m.toNat ≤ failures .Small (sinceClear ops)
          ∧ 0 < outcomes .Small (sinceClear ops)
            ∧ t * outcomes .Small (sinceClear ops) < diverged .Small (sinceClear ops))
      ∧ (∀ tier, 0 ≤ (cascade.told ops).divergence_rate tier
        ∧ (cascade.told ops).divergence_rate tier ≤ 1)
      ∧ ∀ ops', (sinceClear ops').Perm (sinceClear ops) → ∀ role tier,
        (cascade.told ops').route_for role = (cascade.told ops).route_for role
          ∧ (cascade.told ops').is_pinned tier = (cascade.told ops).is_pinned tier
          ∧ (cascade.told ops').divergence_rate tier = (cascade.told ops).divergence_rate tier := by
  have htold := told_sinceClear hm h ops
  refine ⟨htold.route_for_iff hfew, htold.latched, htold.is_pinned_iff hfew, fun tier => ?_,
    fun ops' hperm role tier => htold.perm (told_sinceClear hm h ops') hperm hfew role tier⟩
  rw [htold.rate hfew]
  constructor
  · exact div_nonneg (Nat.cast_nonneg _) (Nat.cast_nonneg _)
  · exact div_le_one_of_le₀ (Nat.cast_le.2 (diverged_le tier _)) (Nat.cast_nonneg _)

/-- A failure that a clear undoes, and then one diverged outcome of two. -/
def clearedOnce : List CascadeOp :=
  [.record_failure .Small, .clear_pin, .record_outcome .Small true, .record_outcome .Small false]

def strictCascade : ModelCascade :=
  { max_failures_before_pin := 1, missing_upgrade_threshold := 1 / 10 }

theorem configured_strictCascade : configured 1 (1 / 10) = .ok strictCascade := by
  unfold configured set_missing_upgrade_threshold
  rw [if_neg (by norm_num)]
  rfl

theorem answers_clearedOnce :
    (strictCascade.told clearedOnce).route_for .Chore = .Large
      ∧ ¬ (strictCascade.told clearedOnce).is_pinned .Small = true := by
  have hlength : (sinceClear clearedOnce).length = 2 := by decide
  have hfew : (sinceClear clearedOnce).countP isOutcome < 2 ^ 64 :=
    (List.countP_le_length (l := sinceClear clearedOnce)).trans_lt (by norm_num [hlength])
  have hfailures : failures .Small (sinceClear clearedOnce) = 0 := by decide
  have houtcomes : outcomes .Small (sinceClear clearedOnce) = 2 := by decide
  have hdiverged : diverged .Small (sinceClear clearedOnce) = 1 := by decide
  obtain ⟨hroute, hsmall, -⟩ :=
    answers_of_counts (UInt32.le_refl 1) configured_strictCascade hfew
  rw [hroute, hsmall, hfailures, houtcomes, hdiverged]
  exact ⟨.inr ⟨by decide, by norm_num⟩, by decide⟩

end ModelCascade

end Praxis
