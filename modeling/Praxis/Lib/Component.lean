import Mathlib.Data.List.Nodup
import Mathlib.Data.List.Perm.Basic
import Mathlib.Data.List.Sort
import Mathlib.Logic.Relation

/-!
# Connected components

A search takes a vertex from its queue and queues those of its neighbours that have not been seen.
When the queue is empty, what it has taken is what a chain of edges links to its start
(`Frontier.mem_done_iff`), provided that what was seen before the search is closed under edges.

Below `n`, the components in the order of their first vertices are `components`: they cover
every vertex once, and two vertices share one exactly when a chain links them.
-/

namespace Component

open Relation (ReflTransGen)

/-! ## A search -/

section Search

variable {α : Type*} {R : α → α → Prop} {old seen : α → Prop} {seed : α} {done waiting : List α}

/-- A search from `seed` under way: the vertices `done` and `waiting` are those it has seen itself,
and it has seen the neighbours of every vertex that is done. -/
structure Frontier (R : α → α → Prop) (old : α → Prop) (seed : α) (seen : α → Prop)
    (done waiting : List α) : Prop where
  seen_iff : ∀ a, seen a ↔ old a ∨ a ∈ done ++ waiting
  fresh : ∀ a ∈ done ++ waiting, ¬ old a
  linked : ∀ a ∈ done ++ waiting, ReflTransGen R seed a
  nodup : (done ++ waiting).Nodup
  seed_mem : seed ∈ done ++ waiting
  closed : ∀ a ∈ done, ∀ b, R a b → seen b

theorem frontier_start (h : ¬ old seed) (hseen : ∀ a, seen a ↔ old a ∨ a = seed) :
    Frontier R old seed seen [] [seed] where
  seen_iff := by simpa using hseen
  fresh := by simpa using h
  linked := by simpa using ReflTransGen.refl
  nodup := by simp
  seed_mem := by simp
  closed := fun a ha => absurd ha List.not_mem_nil

/-- Taking a vertex from the queue and queueing its unseen neighbours. -/
theorem Frontier.take {v : α} {q new : List α} {seen' : α → Prop}
    (h : Frontier R old seed seen done (v :: q)) (hnew : ∀ b, b ∈ new ↔ R v b ∧ ¬ seen b)
    (hnodup : new.Nodup) (hseen : ∀ a, seen' a ↔ seen a ∨ a ∈ new) :
    Frontier R old seed seen' (done ++ [v]) (q ++ new) := by
  have hlist : (done ++ [v]) ++ (q ++ new) = (done ++ v :: q) ++ new := by simp
  refine ⟨fun a => ?_, ?_, ?_, ?_, ?_, ?_⟩
  · rw [hseen, h.seen_iff, hlist, List.mem_append (s := done ++ v :: q), or_assoc]
  · rw [hlist]
    intro a ha hold
    rcases List.mem_append.1 ha with ha | ha
    · exact h.fresh a ha hold
    · exact ((hnew a).1 ha).2 ((h.seen_iff a).2 (.inl hold))
  · rw [hlist]
    intro a ha
    rcases List.mem_append.1 ha with ha | ha
    · exact h.linked a ha
    · exact (h.linked v (by simp)).tail ((hnew a).1 ha).1
  · rw [hlist, List.nodup_append]
    refine ⟨h.nodup, hnodup, ?_⟩
    rintro a ha b hb rfl
    exact ((hnew a).1 hb).2 ((h.seen_iff a).2 (.inr ha))
  · rw [hlist]
    exact List.mem_append_left _ h.seed_mem
  · intro a ha b hab
    rw [hseen]
    rcases List.mem_append.1 ha with ha | ha
    · exact .inl (h.closed a ha b hab)
    · obtain rfl := List.mem_singleton.1 ha
      by_cases hb : seen b
      · exact .inl hb
      · exact .inr ((hnew b).2 ⟨hab, hb⟩)

/-- A finished search has taken exactly what is linked to its start. -/
theorem Frontier.mem_done_iff (h : Frontier R old seed seen done []) (hsymm : ∀ a b, R a b → R b a)
    (hold : ∀ a b, old a → R a b → old b) (a : α) : a ∈ done ↔ ReflTransGen R seed a := by
  have happ : done ++ [] = done := List.append_nil done
  obtain ⟨hseen, hfresh, hlinked, -, hseed, hclosed⟩ := h
  rw [happ] at hfresh hlinked hseed
  refine ⟨hlinked a, fun hl => ?_⟩
  induction hl with
  | refl => exact hseed
  | @tail b c _ hbc ih =>
    rcases (hseen c).1 (hclosed b ih c hbc) with hc | hc
    · -- what was seen before has no edge into the search
      exact absurd (hold c b hc (hsymm b c hbc)) (hfresh b ih)
    · rwa [happ] at hc

/-- A search has not taken all of a list that holds it while vertices wait. -/
theorem Frontier.done_length_lt {v : α} {q vs : List α}
    (h : Frontier R old seed seen done (v :: q)) (hvs : ∀ a, ReflTransGen R seed a → a ∈ vs) :
    done.length < vs.length := by
  have hsub : done ++ v :: q ⊆ vs := fun a ha => hvs a (h.linked a ha)
  have := (List.subperm_of_subset h.nodup hsub).length_le
  simp only [List.length_append, List.length_cons] at this
  omega

end Search

/-! ## The components below a bound -/

section Components

open Classical in
/-- The vertices below `n` that a chain links to `s`. -/
noncomputable def component (R : ℕ → ℕ → Prop) (n s : ℕ) : List ℕ :=
  (List.range n).filter fun i => ReflTransGen R s i

/-- No vertex before `s` is linked to it. -/
def First (R : ℕ → ℕ → Prop) (s : ℕ) : Prop := ∀ i < s, ¬ ReflTransGen R i s

open Classical in
/-- The components below `n` whose first vertex is below `k`, in the order of these. -/
noncomputable def componentsBelow (R : ℕ → ℕ → Prop) (n k : ℕ) : List (List ℕ) :=
  ((List.range k).filter fun s => First R s).map (component R n)

noncomputable def components (R : ℕ → ℕ → Prop) (n : ℕ) : List (List ℕ) := componentsBelow R n n

variable {R : ℕ → ℕ → Prop} {n : ℕ}

theorem mem_component {s i : ℕ} : i ∈ component R n s ↔ i < n ∧ ReflTransGen R s i := by
  simp [component]

theorem component_ascending (n s : ℕ) : (component R n s).Pairwise (· < ·) :=
  List.pairwise_lt_range.filter _

theorem mem_components {C : List ℕ} :
    C ∈ components R n ↔ ∃ s < n, First R s ∧ C = component R n s := by
  simp only [components, componentsBelow, List.mem_map, List.mem_filter, List.mem_range,
    decide_eq_true_eq]
  exact ⟨fun ⟨s, ⟨h1, h2⟩, h3⟩ => ⟨s, h1, h2, h3.symm⟩,
    fun ⟨s, h1, h2, h3⟩ => ⟨s, ⟨h1, h2⟩, h3.symm⟩⟩

open Classical in
theorem componentsBelow_succ (n k : ℕ) :
    componentsBelow R n (k + 1)
      = componentsBelow R n k ++ if First R k then [component R n k] else [] := by
  unfold componentsBelow
  rw [List.range_succ, List.filter_append, List.map_append]
  congr 1
  by_cases h : First R k <;> simp [h]

theorem components_ne_nil {C : List ℕ} (hC : C ∈ components R n) : C ≠ [] := by
  obtain ⟨s, hs, -, rfl⟩ := mem_components.1 hC
  exact List.ne_nil_of_mem (mem_component.2 ⟨hs, .refl⟩)

theorem components_ascending {C : List ℕ} (hC : C ∈ components R n) : C.Pairwise (· < ·) := by
  obtain ⟨s, -, -, rfl⟩ := mem_components.1 hC
  exact component_ascending n s

/-- Everything has a first vertex linked to it. -/
theorem exists_first (i : ℕ) : ∃ s ≤ i, First R s ∧ ReflTransGen R s i := by
  classical
  have hex : ∃ s, ReflTransGen R s i := ⟨i, .refl⟩
  refine ⟨Nat.find hex, Nat.find_min' hex .refl, fun j hj hl => ?_, Nat.find_spec hex⟩
  exact Nat.find_min hex hj (hl.trans (Nat.find_spec hex))

theorem mem_components_flatten {i : ℕ} : i ∈ (components R n).flatten ↔ i < n := by
  simp only [List.mem_flatten, mem_components]
  constructor
  · rintro ⟨C, ⟨s, -, -, rfl⟩, hi⟩
    exact (mem_component.1 hi).1
  · intro hi
    obtain ⟨s, hs, hfirst, hl⟩ := exists_first (R := R) i
    exact ⟨_, ⟨s, hs.trans_lt hi, hfirst, rfl⟩, mem_component.2 ⟨hi, hl⟩⟩

section Symmetric

variable (hsymm : ∀ a b, R a b → R b a)

include hsymm

theorem linked_symm {a b : ℕ} (h : ReflTransGen R a b) : ReflTransGen R b a := by
  induction h with
  | refl => exact .refl
  | tail _ hbc ih => exact .head (hsymm _ _ hbc) ih

theorem first_unique {s t : ℕ} (hs : First R s) (ht : First R t) (h : ReflTransGen R s t) :
    s = t := by
  rcases Nat.lt_trichotomy s t with hlt | heq | hlt
  · exact absurd h (ht s hlt)
  · exact heq
  · exact absurd (linked_symm hsymm h) (hs t hlt)

theorem first_le {s i : ℕ} (hs : First R s) (h : ReflTransGen R s i) : s ≤ i := by
  by_contra hlt
  exact hs i (not_le.1 hlt) (linked_symm hsymm h)

theorem components_flatten_nodup (n : ℕ) : (components R n).flatten.Nodup := by
  rw [List.nodup_flatten]
  refine ⟨fun C hC => (components_ascending hC).imp fun h => ne_of_lt h, ?_⟩
  rw [components, componentsBelow, List.pairwise_map]
  refine (List.pairwise_lt_range.filter _).imp_of_mem fun {s t} hs ht hst => ?_
  intro i hi hi'
  simp only [List.mem_filter, decide_eq_true_eq] at hs ht
  have hl : ReflTransGen R s t :=
    (mem_component.1 hi).2.trans (linked_symm hsymm (mem_component.1 hi').2)
  exact hst.ne (first_unique hsymm hs.2 ht.2 hl)

/-- Every vertex is in exactly one component. -/
theorem components_perm (n : ℕ) : (components R n).flatten.Perm (List.range n) := by
  refine (List.perm_ext_iff_of_nodup (components_flatten_nodup hsymm n) List.nodup_range).2
    fun i => ?_
  rw [mem_components_flatten, List.mem_range]

/-- Two vertices share a component exactly when a chain links them. -/
theorem share_iff {i j : ℕ} (hi : i < n) (hj : j < n) :
    (∃ C ∈ components R n, i ∈ C ∧ j ∈ C) ↔ ReflTransGen R i j := by
  constructor
  · rintro ⟨C, hC, h1, h2⟩
    obtain ⟨s, -, -, rfl⟩ := mem_components.1 hC
    exact (linked_symm hsymm (mem_component.1 h1).2).trans (mem_component.1 h2).2
  · intro hl
    obtain ⟨s, hs, hfirst, hsi⟩ := exists_first (R := R) i
    exact ⟨_, mem_components.2 ⟨s, hs.trans_lt hi, hfirst, rfl⟩, mem_component.2 ⟨hi, hsi⟩,
      mem_component.2 ⟨hj, hsi.trans hl⟩⟩

theorem components_ordered (n : ℕ) :
    (components R n).Pairwise fun C D => ∃ i ∈ C, (∀ j ∈ C, i ≤ j) ∧ ∀ j ∈ D, i < j := by
  rw [components, componentsBelow, List.pairwise_map]
  refine (List.pairwise_lt_range.filter _).imp_of_mem fun {s t} hs ht hst => ?_
  simp only [List.mem_filter, List.mem_range, decide_eq_true_eq] at hs ht
  refine ⟨s, mem_component.2 ⟨hs.1, .refl⟩, fun j hj => ?_, fun j hj => ?_⟩
  · exact first_le hsymm hs.2 (mem_component.1 hj).2
  · exact hst.trans_le (first_le hsymm ht.2 (mem_component.1 hj).2)

end Symmetric

end Components

end Component
