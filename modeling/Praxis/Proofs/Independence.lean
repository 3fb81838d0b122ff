import Mathlib.Data.List.GetD
import Praxis.Proofs.Components

/-!
# A component is scheduled as if it were alone

The group of a call is its colour, and the colour only looks at earlier calls in conflict. These
are in the call's own component, so neither the other components nor calls added apart from it
move a call.
-/

namespace Praxis

namespace DependencyGraph

open FirstFit (colour width)
open Component (component components)

/-- The calls of a component, in their order. -/
def callsOf (claims : List (ToolCall × List Str)) (C : List ℕ) : List (ToolCall × List Str) :=
  C.filterMap fun i => claims[i]?

/-- `claims'` has the calls of `claims`, call `i` at `f i`, and others that share no resource with
the calls of `C`. -/
structure AddsApart (claims claims' : List (ToolCall × List Str)) (f : ℕ → ℕ) (C : List ℕ) :
    Prop where
  order : StrictMono f
  kept : ∀ i < claims.length, claims'[f i]? = claims[i]?
  apart : ∀ j < claims'.length, (∀ i < claims.length, f i ≠ j) → ∀ i ∈ C,
    ∀ r ∈ (ofCalls claims').resources_at j, r ∉ (ofCalls claims).resources_at i

variable {claims claims' : List (ToolCall × List Str)} {C : List ℕ}

theorem component_lt (hC : C ∈ (ofCalls claims).weakly_connected_components) {i : ℕ}
    (hi : i ∈ C) : i < claims.length := by
  rw [weakly_connected_components_eq, Component.mem_components] at hC
  obtain ⟨s, -, -, rfl⟩ := hC
  rw [← ofCalls_size claims]
  exact (Component.mem_component.1 hi).1

theorem component_ascending (hC : C ∈ (ofCalls claims).weakly_connected_components) :
    C.Pairwise (· < ·) := by
  rw [weakly_connected_components_eq] at hC
  exact Component.components_ascending hC

theorem component_closed (hC : C ∈ (ofCalls claims).weakly_connected_components) {i j : ℕ}
    (hi : i ∈ C) (h : (ofCalls claims).Conflict i j) : j ∈ C := by
  rw [weakly_connected_components_eq, Component.mem_components] at hC
  obtain ⟨s, -, -, rfl⟩ := hC
  have hl := (Component.mem_component.1 hi).2
  exact Component.mem_component.2 ⟨(has_conflict_iff.1 h).2.2.1, hl.tail h⟩

theorem exists_component {i : ℕ} (hi : i < claims.length) :
    ∃ C ∈ (ofCalls claims).weakly_connected_components, i ∈ C := by
  have hmem := Component.mem_components_flatten (R := (ofCalls claims).Conflict)
    (n := claims.length) (i := i)
  rw [weakly_connected_components_eq, ofCalls_size]
  exact List.mem_flatten.1 (hmem.2 hi)

theorem conflict_congr {i j i' j' : ℕ} (hi : i < claims.length) (hj : j < claims.length)
    (hi' : claims'[i']? = claims[i]?) (hj' : claims'[j']? = claims[j]?) (hne : i = j ↔ i' = j') :
    (ofCalls claims').Conflict i' j' ↔ (ofCalls claims).Conflict i j := by
  have hlt : ∀ {k k'}, k < claims.length → claims'[k']? = claims[k]? → k' < claims'.length :=
    fun hk h => by
      rw [List.getElem?_eq_getElem hk] at h
      exact (List.getElem?_eq_some_iff.1 h).1
  simp only [Conflict, has_conflict_iff, ofCalls_size, ofCalls_resources_at, hi', hj', hi, hj,
    hlt hi hi', hlt hj hj', ne_eq, hne, true_and]

section Alone

theorem component_getD_mem {k : ℕ} (hk : k < C.length) : C.getD k 0 ∈ C := by
  rw [List.getD_eq_getElem _ _ hk]
  exact List.getElem_mem hk

variable (hC : C ∈ (ofCalls claims).weakly_connected_components)

include hC

theorem callsOf_eq_map : (callsOf claims C).map some = C.map fun i => claims[i]? := by
  have hsome : ∀ i ∈ C, claims[i]? = some (claims.getD i ({}, [])) := fun i hi => by
    rw [List.getD_eq_getElem?_getD, List.getElem?_eq_getElem (component_lt hC hi),
      Option.getD_some]
  rw [callsOf, List.filterMap_eq_map_iff_forall_eq_some.2 hsome, List.map_map]
  exact (List.map_congr_left fun i hi => hsome i hi).symm

theorem callsOf_length : (callsOf claims C).length = C.length := by
  simpa using congrArg List.length (callsOf_eq_map hC)

theorem callsOf_getElem? {k : ℕ} (hk : k < C.length) :
    (callsOf claims C)[k]? = claims[C.getD k 0]? := by
  have h := congrArg (fun l => l[k]?) (callsOf_eq_map hC)
  simp only [List.getElem?_map, List.getElem?_eq_getElem hk, Option.map_some] at h
  rw [List.getD_eq_getElem _ _ hk]
  rcases hc : (callsOf claims C)[k]? with _ | c <;> rw [hc] at h
  · cases h
  · exact Option.some.inj h

theorem component_getD_lt_iff {k l : ℕ} (hk : k < C.length) (hl : l < C.length) :
    C.getD k 0 < C.getD l 0 ↔ k < l := by
  have hmono : StrictMono C.get := (component_ascending hC).sortedLT.strictMono_get
  rw [List.getD_eq_getElem _ _ hk, List.getD_eq_getElem _ _ hl]
  exact hmono.lt_iff_lt (a := ⟨k, hk⟩) (b := ⟨l, hl⟩)

theorem callsOf_conflict {k l : ℕ} (hk : k < C.length) (hl : l < C.length) :
    (ofCalls (callsOf claims C)).Conflict k l
      ↔ (ofCalls claims).Conflict (C.getD k 0) (C.getD l 0) := by
  have h1 := component_getD_lt_iff hC hk hl
  have h2 := component_getD_lt_iff hC hl hk
  exact conflict_congr (component_lt hC (component_getD_mem hk))
    (component_lt hC (component_getD_mem hl)) (callsOf_getElem? hC hk) (callsOf_getElem? hC hl)
    (by omega)

theorem colour_component (k : ℕ) (hk : k < C.length) :
    colour (ofCalls claims).Conflict (C.getD k 0)
      = colour (ofCalls (callsOf claims C)).Conflict k := by
  refine FirstFit.colour_transport (f := fun k => C.getD k 0) (P := fun k => k < C.length)
    (fun j hj i hi hS => ?_) (fun j hj k hkj hR => ?_) k hk
  · have hi' : i < C.length := hi.trans hj
    exact ⟨hi', (component_getD_lt_iff hC hi' hj).2 hi, (callsOf_conflict hC hj hi').1 hS⟩
  · -- an earlier call in conflict is in the component, at an earlier place
    obtain ⟨i, hi, rfl⟩ := List.getElem_of_mem (component_closed hC (component_getD_mem hj) hR)
    rw [← List.getD_eq_getElem _ 0 hi] at hkj hR
    exact ⟨i, (component_getD_lt_iff hC hi hj).1 hkj, (callsOf_conflict hC hj hi).2 hR,
      List.getD_eq_getElem _ 0 hi⟩

theorem group_of_component {k : ℕ} (hk : k < C.length) :
    (ofCalls claims).group_of C[k] = (ofCalls (callsOf claims C)).group_of k := by
  have hlt : C.getD k 0 < (ofCalls claims).size := by
    rw [ofCalls_size]
    exact component_lt hC (component_getD_mem hk)
  have hk' : k < (ofCalls (callsOf claims C)).size := by rwa [ofCalls_size, callsOf_length hC]
  rw [← List.getD_eq_getElem _ 0 hk, group_of_eq_colour hlt, group_of_eq_colour hk']
  exact colour_component hC k hk

/-- Calls added apart from a component leave its calls in their groups. -/
theorem group_of_addsApart {f : ℕ → ℕ} (h : AddsApart claims claims' f C) {i : ℕ} (hi : i ∈ C) :
    (ofCalls claims').group_of (f i) = (ofCalls claims).group_of i := by
  have hlt' : ∀ k ∈ C, f k < claims'.length := fun k hk => by
    have hkept := h.kept k (component_lt hC hk)
    rw [List.getElem?_eq_getElem (component_lt hC hk)] at hkept
    exact (List.getElem?_eq_some_iff.1 hkept).1
  have hiff : ∀ {j k}, j < claims.length → k < claims.length →
      ((ofCalls claims').Conflict (f j) (f k) ↔ (ofCalls claims).Conflict j k) := fun hj hk =>
    conflict_congr hj hk (h.kept _ hj) (h.kept _ hk) h.order.injective.eq_iff.symm
  have hi' : i < claims.length := component_lt hC hi
  rw [group_of_eq_colour (by rw [ofCalls_size]; exact hlt' i hi),
    group_of_eq_colour (by rwa [ofCalls_size])]
  refine FirstFit.colour_transport (f := f) (P := fun k => k ∈ C)
    (fun j hj k hkj hS => ?_) (fun j hj k hkj hR => ?_) i hi
  · have hk := component_closed hC hj hS
    exact ⟨hk, h.order hkj, (hiff (component_lt hC hj) (component_lt hC hk)).2 hS⟩
  · by_cases hold : ∃ i < claims.length, f i = k
    · obtain ⟨i, hi, rfl⟩ := hold
      exact ⟨i, h.order.lt_iff_lt.1 hkj, (hiff (component_lt hC hj) hi).1 hR, rfl⟩
    · -- an added call shares no resource with the component
      push Not at hold
      obtain ⟨-, -, hk, r, hr, hr'⟩ := has_conflict_iff.1 hR
      rw [ofCalls_size] at hk
      rw [ofCalls_resources_at, h.kept j (component_lt hC hj), ← ofCalls_resources_at] at hr
      exact absurd hr (h.apart k hk hold j hj r hr')

end Alone

theorem schedule_length_eq_sup (claims : List (ToolCall × List Str)) :
    (ofCalls claims).schedule.length
      = (ofCalls claims).weakly_connected_components.toFinset.sup
        fun C => (ofCalls (callsOf claims C)).schedule.length := by
  refine le_antisymm ?_ (Finset.sup_le fun C hC => ?_)
  · rw [schedule_length]
    refine Finset.sup_le fun j hj => ?_
    obtain ⟨C, hC, hjC⟩ := exists_component (by simpa using hj : j < claims.length)
    obtain ⟨k, hk, rfl⟩ := List.getElem_of_mem hjC
    have hcol := colour_component hC k hk
    have hlt : colour (ofCalls (callsOf claims C)).Conflict k
        < (ofCalls (callsOf claims C)).schedule.length := by
      rw [schedule_length, ofCalls_size, callsOf_length hC]
      exact FirstFit.colour_lt_width hk
    rw [List.getD_eq_getElem _ _ hk] at hcol
    rw [hcol]
    exact (Nat.succ_le_of_lt hlt).trans (Finset.le_sup
      (f := fun C => (ofCalls (callsOf claims C)).schedule.length) (List.mem_toFinset.2 hC))
  · have hC := List.mem_toFinset.1 hC
    rw [schedule_length, ofCalls_size, callsOf_length hC]
    refine Finset.sup_le fun k hk => ?_
    have hk := Finset.mem_range.1 hk
    rw [← colour_component hC k hk, schedule_length]
    refine FirstFit.colour_lt_width ?_
    rw [ofCalls_size]
    exact component_lt hC (component_getD_mem hk)

/-- Each component is scheduled as it would be alone, the widest one sets the number of groups,
and calls added apart from a component do not move its calls. -/
theorem schedule_independent (claims : List (ToolCall × List Str)) :
    (∀ C ∈ (ofCalls claims).weakly_connected_components, ∀ (k : ℕ) (hk : k < C.length),
        (ofCalls claims).group_of C[k] = (ofCalls (callsOf claims C)).group_of k)
      ∧ (ofCalls claims).schedule.length
        = (ofCalls claims).weakly_connected_components.toFinset.sup
          (fun C => (ofCalls (callsOf claims C)).schedule.length)
      ∧ (∀ C ∈ (ofCalls claims).weakly_connected_components, ∀ claims' f,
        AddsApart claims claims' f C → ∀ i ∈ C,
          (ofCalls claims').group_of (f i) = (ofCalls claims).group_of i) := by
  refine ⟨fun C hC k hk => group_of_component hC hk, schedule_length_eq_sup claims,
    fun C hC claims' f h i hi => group_of_addsApart hC h hi⟩

end DependencyGraph

end Praxis
