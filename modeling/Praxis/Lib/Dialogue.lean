import Mathlib.Data.List.Induction
import Mathlib.Data.Option.Basic

/-!
# Programs that talk to their surroundings

A program makes a call, waits for the answer and goes on from there. What it has said and been told
so far is its transcript. `along` is the rule of induction: what is said of the transcript and the
state is carried over by each answer. `length_le` bounds what is still to be said once every call
brings the program nearer to its end, and by `after_map` a program that differs from another in
what it keeps to itself has the same transcripts.
-/

/-- In each state a program either makes a call or makes none any more. An answer that the call
cannot get leads nowhere. -/
structure Dialogue (S Q A : Type) where
  call : S → Option Q
  resume : S → A → Option S

namespace Dialogue

variable {S T Q A : Type} [DecidableEq Q]

section Run

variable (D : Dialogue S Q A)

/-- The state after a call and its answer, if this is the call that is made. -/
def step (s : S) (x : Q × A) : Option S := if D.call s = some x.1 then D.resume s x.2 else none

/-- The state after so many calls with their answers. -/
def after : S → List (Q × A) → Option S
  | s, [] => some s
  | s, x :: xs => (D.step s x).bind fun t => after t xs

variable {D} {s t u : S} {x : Q × A} {xs ys : List (Q × A)}

theorem step_eq_some : D.step s x = some t ↔ D.call s = some x.1 ∧ D.resume s x.2 = some t := by
  unfold step
  split_ifs with h
  · simp [h]
  · simp [h]

theorem after_cons : D.after s (x :: xs) = some u ↔
    ∃ t, D.step s x = some t ∧ D.after t xs = some u :=
  Option.bind_eq_some_iff

theorem after_append : D.after s (xs ++ ys) = some u ↔
    ∃ t, D.after s xs = some t ∧ D.after t ys = some u := by
  induction xs generalizing s with
  | nil => simp [after]
  | cons x xs ih =>
    rw [List.cons_append, after_cons]
    constructor
    · rintro ⟨t, hstep, h⟩
      obtain ⟨v, hxs, hys⟩ := ih.1 h
      exact ⟨v, after_cons.2 ⟨t, hstep, hxs⟩, hys⟩
    · rintro ⟨v, hxs, hys⟩
      obtain ⟨t, hstep, h⟩ := after_cons.1 hxs
      exact ⟨t, hstep, ih.2 ⟨v, h, hys⟩⟩

theorem after_snoc : D.after s (xs ++ [x]) = some u ↔
    ∃ t, D.after s xs = some t ∧ D.step t x = some u := by
  rw [after_append]
  simp [after]

/-- What holds at first and is carried over by each answer holds all along. -/
theorem along {P : List (Q × A) → S → Prop} (hstart : P [] s)
    (hstep : ∀ xs t x u, P xs t → D.step t x = some u → P (xs ++ [x]) u)
    (h : D.after s xs = some t) : P xs t := by
  induction xs using List.reverseRecOn generalizing t with
  | nil =>
    cases h
    exact hstart
  | append_singleton xs x ih =>
    obtain ⟨v, hv, hx⟩ := after_snoc.1 h
    exact hstep xs v x t (ih hv) hx

/-- Calls that bring the program nearer to its end are bounded by its distance; the others, which
do not take it away, are counted. -/
theorem length_le {I : S → Prop} (rank : S → ℕ) (idle : Q × A → Bool)
    (hkeep : ∀ t x u, I t → D.step t x = some u → I u)
    (hnear : ∀ t x u, I t → D.step t x = some u → rank u + 1 ≤ rank t + if idle x then 1 else 0)
    (hs : I s) (h : D.after s xs = some t) : xs.length + rank t ≤ rank s + xs.countP idle := by
  have hboth : I t ∧ xs.length + rank t ≤ rank s + xs.countP idle :=
    along (P := fun xs t => I t ∧ xs.length + rank t ≤ rank s + xs.countP idle) ⟨hs, by simp⟩
      (fun xs t x u ht hx => by
        have hnext := hnear t x u ht.1 hx
        refine ⟨hkeep t x u ht.1 hx, ?_⟩
        rw [List.length_append, List.countP_append, List.countP_singleton, List.length_singleton]
        omega) h
  exact hboth.2

end Run

/-- A program whose states are seen through `f` as those of another one says the same. -/
theorem after_map {D : Dialogue S Q A} {E : Dialogue T Q A} {f : S → T}
    (hcall : ∀ s, E.call (f s) = D.call s)
    (hresume : ∀ s a, E.resume (f s) a = (D.resume s a).map f) (s : S) (xs : List (Q × A)) :
    E.after (f s) xs = (D.after s xs).map f := by
  induction xs generalizing s with
  | nil => rfl
  | cons x xs ih =>
    have hstep : E.step (f s) x = (D.step s x).map f := by
      unfold step
      rw [hcall, hresume]
      split_ifs <;> rfl
    rw [after, after, hstep]
    rcases D.step s x with _ | t
    · rfl
    · exact ih t

end Dialogue
