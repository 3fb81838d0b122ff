import Praxis.Instances
import Praxis.Proofs.Execution

/-!
# Which context a worker acts on

Every worker is given a fork of the batch's context, made for it alone. `read_file` and `shell` act
on the context that they were registered with instead, so the workers keep to their forks exactly if
no call of the batch gets as far as that.
-/

namespace Praxis

open Interleave (Proc Pool Step Steps Scheduler)
open Instances

variable {W S R : Type}

/-- No instance is made, and none but the given one is changed. -/
def OnlyOn (own : Option ℕ) (w w' : Instances W S) : Prop :=
  w'.next = w.next ∧ ∀ c, own ≠ some c → w'.cells c = w.cells c

/-- Member `i` acts on the instance `c`. -/
inductive Touches (i c : ℕ) : Pool ℕ (Instances W S) R → Pool ℕ (Instances W S) R → Prop
  | act {w q l f k m d} (h : (f w).cells c ≠ w.cells c) :
    Touches i c ⟨w, q, l ++ (i, .act f k) :: m, d⟩ ⟨f w, q, l ++ (i, k w) :: m, d⟩

theorem keeps_zoom {A B : Type} {r : B → B → Prop} {get : B → A} {put : A → B → B}
    (h : ∀ a b, r b (put a b)) : ∀ p : Proc A R, (zoom get put p).Keeps r
  | .ret _ => .ret
  | .act _ k => .act (fun _ => h _ _) fun _ => keeps_zoom h (k _)

section Tools

variable {T : JsonText} {P : Platform W Empty} {C : ContextClass W S} {o : ℕ}
  {registry : ToolRegistry (Instances W S) ℕ}

end Tools

section Group

variable {spawn : ℕ → Instances W S → Proc (Instances W S) R × Instances W S}
  {w₀ : Instances W S} {own : ℕ → Option ℕ} {p p' q : Pool ℕ (Instances W S) R}

/-- Whatever the world, a launch makes at most one instance, the next, and the process launched acts
on no other. -/
def LaunchesOwn (spawn : ℕ → Instances W S → Proc (Instances W S) R × Instances W S) (i : ℕ) :
    Prop :=
  ∀ w, (spawn i w).1.Keeps (OnlyOn none) ∧ (spawn i w).2 = w
    ∨ (spawn i w).1.Keeps (OnlyOn (some w.next)) ∧ (spawn i w).2.next = w.next + 1
      ∧ ∀ c, c ≠ w.next → (spawn i w).2.cells c = w.cells c

/-- Each member launched acts on no instance but its own, made since `w₀`; those made before are as
they were. -/
structure Owns (spawn : ℕ → Instances W S → Proc (Instances W S) R × Instances W S)
    (w₀ : Instances W S) (own : ℕ → Option ℕ) (p : Pool ℕ (Instances W S) R) : Prop where
  nodup : p.queue.Nodup
  queued : ∀ i ∈ p.queue, own i = none ∧ LaunchesOwn spawn i
  live : ∀ m ∈ p.live, m.2.Keeps (OnlyOn (own m.1))
  made : ∀ i c, own i = some c → w₀.next ≤ c ∧ c < p.world.next
  inj : ∀ i j c, own i = some c → own j = some c → i = j
  next : w₀.next ≤ p.world.next
  kept : ∀ c < w₀.next, p.world.cells c = w₀.cells c

/-- What a member has of its own, it has for good. -/
def Extends (own own' : ℕ → Option ℕ) : Prop := ∀ i c, own i = some c → own' i = some c

/-- A launch that makes no instance. -/
theorem Owns.launch_none {w : Instances W S} {i : ℕ} {q : List ℕ}
    {l : List (ℕ × Proc (Instances W S) R)} {d : List (ℕ × R)}
    (h : Owns spawn w₀ own ⟨w, i :: q, l, d⟩) (hkeeps : (spawn i w).1.Keeps (OnlyOn none))
    (hworld : (spawn i w).2 = w) :
    Owns spawn w₀ own ⟨(spawn i w).2, q, l ++ [(i, (spawn i w).1)], d⟩ where
  nodup := (List.nodup_cons.1 h.nodup).2
  queued := fun j hj => h.queued j (List.mem_cons_of_mem _ hj)
  live := fun m hm => by
    rcases List.mem_append.1 hm with hm | hm
    · exact h.live m hm
    · obtain rfl := List.mem_singleton.1 hm
      rwa [(h.queued i List.mem_cons_self).1]
  made := by
    rw [hworld]
    exact h.made
  inj := h.inj
  next := by
    rw [hworld]
    exact h.next
  kept := by
    rw [hworld]
    exact h.kept

/-- A launch that makes the next instance: the member launched has it from then on. -/
theorem Owns.launch_own {w : Instances W S} {i : ℕ} {q : List ℕ}
    {l : List (ℕ × Proc (Instances W S) R)} {d : List (ℕ × R)}
    (h : Owns spawn w₀ own ⟨w, i :: q, l, d⟩)
    (hkeeps : (spawn i w).1.Keeps (OnlyOn (some w.next))) (hnext : (spawn i w).2.next = w.next + 1)
    (hcells : ∀ c, c ≠ w.next → (spawn i w).2.cells c = w.cells c) :
    Owns spawn w₀ (Function.update own i (some w.next))
      ⟨(spawn i w).2, q, l ++ [(i, (spawn i w).1)], d⟩ := by
  obtain ⟨hi, hq⟩ := List.nodup_cons.1 h.nodup
  have hfresh : own i = none := (h.queued i List.mem_cons_self).1
  have hw₀ : w₀.next ≤ w.next := h.next
  refine ⟨hq, fun j hj => ?_, fun m hm => ?_, fun j c hc => ?_, fun j k c hj hk => ?_, ?_,
    fun c hc => ?_⟩
  · rw [Function.update_of_ne (by rintro rfl; exact hi hj)]
    exact h.queued j (List.mem_cons_of_mem _ hj)
  · rcases List.mem_append.1 hm with hm | hm
    · by_cases hmi : m.1 = i
      · have hlive := h.live m hm
        rw [hmi, hfresh] at hlive
        rw [hmi]
        exact hlive.mono fun _ _ hw => ⟨hw.1, fun c _ => hw.2 c nofun⟩
      · rw [Function.update_of_ne hmi]
        exact h.live m hm
    · obtain rfl := List.mem_singleton.1 hm
      rwa [Function.update_self]
  · show w₀.next ≤ c ∧ c < (spawn i w).2.next
    rw [hnext]
    by_cases hji : j = i
    · subst hji
      rw [Function.update_self] at hc
      obtain rfl := Option.some.inj hc
      omega
    · rw [Function.update_of_ne hji] at hc
      have hmade := h.made j c hc
      exact ⟨hmade.1, Nat.lt_succ_of_lt hmade.2⟩
  · -- the instance made is none of those that the others have
    have hnew : ∀ j, j ≠ i → own j ≠ some w.next := fun j _ hown =>
      absurd (h.made j _ hown).2 (Nat.lt_irrefl _)
    by_cases hji : j = i <;> by_cases hki : k = i
    · rw [hji, hki]
    · subst hji
      rw [Function.update_self] at hj
      rw [Function.update_of_ne hki, ← hj] at hk
      exact absurd hk (hnew k hki)
    · subst hki
      rw [Function.update_self] at hk
      rw [Function.update_of_ne hji, ← hk] at hj
      exact absurd hj (hnew j hji)
    · rw [Function.update_of_ne hji] at hj
      rw [Function.update_of_ne hki] at hk
      exact h.inj j k c hj hk
  · show w₀.next ≤ (spawn i w).2.next
    rw [hnext]
    exact Nat.le_succ_of_le h.next
  · exact (hcells c (by omega)).trans (h.kept c hc)

/-- An action of a member leaves all instances but its own as they are. -/
theorem Owns.act {w : Instances W S} {q : List ℕ} {i : ℕ} {f : Instances W S → Instances W S}
    {k : Instances W S → Proc (Instances W S) R} {l m : List (ℕ × Proc (Instances W S) R)}
    {d : List (ℕ × R)} (h : Owns spawn w₀ own ⟨w, q, l ++ (i, .act f k) :: m, d⟩) :
    Owns spawn w₀ own ⟨f w, q, l ++ (i, k w) :: m, d⟩ := by
  have hi := h.live (i, .act f k) (by simp)
  cases hi with
  | act hf hk =>
    refine ⟨h.nodup, h.queued, fun x hx => ?_, fun j c hc => ?_, h.inj, ?_, fun c hc => ?_⟩
    · rcases List.mem_append.1 hx with hx | hx
      · exact h.live x (List.mem_append_left _ hx)
      · rcases List.mem_cons.1 hx with rfl | hx
        · exact hk w
        · exact h.live x (List.mem_append_right _ (List.mem_cons_of_mem _ hx))
    · show w₀.next ≤ c ∧ c < (f w).next
      rw [(hf w).1]
      exact h.made j c hc
    · show w₀.next ≤ (f w).next
      rw [(hf w).1]
      exact h.next
    · refine ((hf w).2 c fun hown => ?_).trans (h.kept c hc)
      exact absurd (h.made i c hown).1 (Nat.not_le_of_lt hc)

theorem Owns.step (h : Owns spawn w₀ own p) (hstep : Step spawn p p') :
    ∃ own', Owns spawn w₀ own' p' ∧ Extends own own' := by
  cases hstep with
  | @launch w i q l d =>
    obtain ⟨hfresh, hspawn⟩ := h.queued i List.mem_cons_self
    rcases hspawn w with ⟨hkeeps, hworld⟩ | ⟨hkeeps, hnext, hcells⟩
    · exact ⟨own, h.launch_none hkeeps hworld, fun _ _ hc => hc⟩
    · refine ⟨_, h.launch_own hkeeps hnext hcells, fun j c hc => ?_⟩
      rwa [Function.update_of_ne (by rintro rfl; simp [hfresh] at hc)]
  | act => exact ⟨own, h.act, fun _ _ hc => hc⟩
  | @finish w q l i r m d =>
    have hlive : ∀ x ∈ l ++ m, x.2.Keeps (OnlyOn (own x.1)) := fun x hx => by
      refine h.live x ?_
      rcases List.mem_append.1 hx with hx | hx
      · exact List.mem_append_left _ hx
      · exact List.mem_append_right _ (List.mem_cons_of_mem _ hx)
    exact ⟨own, ⟨h.nodup, h.queued, hlive, h.made, h.inj, h.next, h.kept⟩, fun _ _ hc => hc⟩

theorem Owns.steps (h : Owns spawn w₀ own p) (hsteps : Steps spawn p q) :
    ∃ own', Owns spawn w₀ own' q ∧ Extends own own' := by
  induction hsteps with
  | refl => exact ⟨own, h, fun _ _ hc => hc⟩
  | tail _ hstep ih =>
    obtain ⟨own₁, h₁, hext₁⟩ := ih
    obtain ⟨own₂, h₂, hext₂⟩ := h₁.step hstep
    exact ⟨own₂, h₂, fun i c hc => hext₂ i c (hext₁ i c hc)⟩

theorem Touches.step {i c : ℕ} (h : Touches i c p p') : Step spawn p p' := by
  cases h with
  | act => exact .act

end Group

/-! ## Batches -/

section Batch

variable {T : JsonText} {P : Platform W Empty} {C : ContextClass W S} {o : ℕ}
  {registry : ToolRegistry (Instances W S) ℕ}

variable (sched : Scheduler ℕ (Instances W S) (Except Exn ToolExecutionRecord))

end Batch

/-! ## A context that counts its reads -/

end Praxis
