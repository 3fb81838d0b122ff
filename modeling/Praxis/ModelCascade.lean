import Praxis.Json
import Mathlib.Data.List.AList

/-!
# The model cascade

Chore completions go to the small tier until too many of its outcomes diverge or until it has
failed too often; decision completions always go to the large tier.
-/

namespace Praxis

inductive Tier
  | Small
  | Large
  deriving DecidableEq

/-- The number of the enumerator. -/
def Tier.toNat : Tier → ℕ
  | Small => 0
  | Large => 1

inductive Role
  | Chore
  | Decision
  deriving DecidableEq

structure TierState where
  attempts : UInt64 := 0
  divergences : UInt64 := 0
  failures : UInt32 := 0
  deriving DecidableEq

structure ModelCascade where
  chore_pinned : Bool := false
  max_failures_before_pin : UInt32 := 3
  missing_upgrade_threshold : ℚ := 1 / 10
  tiers : AList fun _ : Tier => TierState := ∅

namespace ModelCascade

def divergence_rate (cascade : ModelCascade) (tier : Tier) : ℚ :=
  match cascade.tiers.lookup tier with
  | none => 0
  | some state =>
    if state.attempts = 0 then 0 else (state.divergences.toNat : ℚ) / state.attempts.toNat

def route_for (cascade : ModelCascade) (role : Role) : Tier :=
  if role = .Decision then .Large
  else if cascade.chore_pinned then .Large
  else
    match cascade.tiers.lookup .Small with
    | none => .Small
    | some state =>
      if 0 < state.attempts
          ∧ cascade.missing_upgrade_threshold < cascade.divergence_rate .Small then .Large
      else .Small

/-- The statistics of a tier, which `tiers_[tier]` starts at zero. -/
def state (cascade : ModelCascade) (tier : Tier) : TierState :=
  (cascade.tiers.lookup tier).getD {}

def record_outcome (cascade : ModelCascade) (tier : Tier) (diverged : Bool) : ModelCascade :=
  let state := cascade.state tier
  { cascade with
    tiers := cascade.tiers.insert tier
      { state with
        attempts := state.attempts + 1
        divergences := if diverged then state.divergences + 1 else state.divergences } }

def record_failure (cascade : ModelCascade) (tier : Tier) : ModelCascade :=
  let state := cascade.state tier
  let failures := state.failures + 1
  { cascade with
    tiers := cascade.tiers.insert tier { state with failures := failures }
    chore_pinned := cascade.chore_pinned
      || (tier == .Small && cascade.max_failures_before_pin ≤ failures) }

def set_max_failures_before_pin (cascade : ModelCascade) (max_failures : UInt32) : ModelCascade :=
  { cascade with max_failures_before_pin := max_failures }

def set_missing_upgrade_threshold (cascade : ModelCascade) (threshold : ℚ) :
    Except Exn ModelCascade :=
  if threshold < 0 ∨ 1 < threshold then .error (.user "threshold must be in [0, 1]")
  else .ok { cascade with missing_upgrade_threshold := threshold }

def clear_pin (cascade : ModelCascade) : ModelCascade :=
  { cascade with chore_pinned := false, tiers := ∅ }

/-- The large tier is pinned only if the outcomes of the small one say so as well. -/
def is_pinned (cascade : ModelCascade) (tier : Tier) : Bool :=
  if tier = .Small then cascade.chore_pinned
  else if !cascade.chore_pinned then false
  else
    match cascade.tiers.lookup .Small with
    | none => false
    | some state =>
      if state.attempts = 0 then false
      else cascade.missing_upgrade_threshold < cascade.divergence_rate .Small

end ModelCascade

/-- What is told to a cascade. -/
inductive CascadeOp
  | record_outcome (tier : Tier) (diverged : Bool)
  | record_failure (tier : Tier)
  | clear_pin
  deriving DecidableEq

def CascadeOp.apply (cascade : ModelCascade) : CascadeOp → ModelCascade
  | record_outcome tier diverged => cascade.record_outcome tier diverged
  | record_failure tier => cascade.record_failure tier
  | clear_pin => cascade.clear_pin

end Praxis
