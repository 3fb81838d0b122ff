import Mathlib.Algebra.BigOperators.Group.Finset.Basic
import Mathlib.Algebra.Order.BigOperators.Group.Finset
import Mathlib.Algebra.Order.Ring.Defs
import Mathlib.Logic.Function.Basic

/-!
# Vectors with given signs

An orthant is the set of the vectors whose coordinates have the signs of `σ`, or are zero. Adding
to a coordinate with its sign stays in the orthant and takes no coordinate back towards zero, and
two vectors of one orthant do not point away from each other.
-/

namespace Orthant

variable {ι K : Type*} [CommRing K] {σ v w : ι → K}

/-- Every coordinate is ± 1. -/
def Signs (σ : ι → K) : Prop := ∀ i, σ i * σ i = 1

def dot [Fintype ι] (v w : ι → K) : K := ∑ i, v i * w i

theorem mul_eq_of_signs (hσ : Signs σ) (v w : ι → K) (i : ι) :
    v i * w i = σ i * v i * (σ i * w i) := by
  rw [mul_mul_mul_comm, hσ i, one_mul]

/-- How far a coordinate goes along its sign once an amount has been added along the sign of `b`. -/
theorem sign_mul_update [DecidableEq ι] (hσ : Signs σ) (v : ι → K) (b : ι) (c : K) (i : ι) :
    σ i * Function.update v b (v b + c * σ b) i = σ i * v i + if i = b then c else 0 := by
  by_cases h : i = b
  · subst h
    rw [Function.update_self, if_pos rfl, mul_add, mul_left_comm, hσ i, mul_one]
  · rw [Function.update_of_ne h, if_neg h, add_zero]

/-! ## Ordered coordinates -/

variable [LinearOrder K]

/-- Every coordinate has its sign or is zero. -/
def Within (σ v : ι → K) : Prop := ∀ i, 0 ≤ σ i * v i

theorem within_zero (σ : ι → K) : Within σ 0 := fun i => by simp

variable [IsStrictOrderedRing K]

section Add

variable [DecidableEq ι] {b : ι} {c : K}

theorem sign_mul_le_update (hσ : Signs σ) (hc : 0 ≤ c) (v : ι → K) (b i : ι) :
    σ i * v i ≤ σ i * Function.update v b (v b + c * σ b) i := by
  rw [sign_mul_update hσ]
  split_ifs
  · exact le_add_of_nonneg_right hc
  · rw [add_zero]

theorem Within.update (h : Within σ v) (hσ : Signs σ) (hc : 0 ≤ c) :
    Within σ (Function.update v b (v b + c * σ b)) := fun i =>
  (h i).trans (sign_mul_le_update hσ hc v b i)

/-- The coordinate that is added to goes at least as far as what is added. -/
theorem Within.le_update (h : Within σ v) (hσ : Signs σ) :
    c ≤ σ b * Function.update v b (v b + c * σ b) b := by
  rw [sign_mul_update hσ, if_pos rfl]
  exact le_add_of_nonneg_left (h b)

end Add

section Dot

variable [Fintype ι]

theorem Within.dot_nonneg (hv : Within σ v) (hw : Within σ w) (hσ : Signs σ) : 0 ≤ dot v w :=
  Finset.sum_nonneg fun i _ => by
    rw [mul_eq_of_signs hσ]
    exact mul_nonneg (hv i) (hw i)

/-- One coordinate far enough from zero makes the square that large. -/
theorem one_le_dot_self (hσ : Signs σ) {i : ι} (h : 1 ≤ σ i * v i) : 1 ≤ dot v v := by
  have hi : 1 ≤ v i * v i := by
    rw [mul_eq_of_signs hσ]
    exact one_le_mul_of_one_le_of_one_le h h
  exact hi.trans (Finset.single_le_sum (f := fun j => v j * v j) (fun j _ => mul_self_nonneg _)
    (Finset.mem_univ i))

end Dot

end Orthant
