import Praxis.Lib.Component
import Praxis.Proofs.Schedule

/-!
# `weakly_connected_components` is the partition into linked calls

Each `while (!q.empty())` loop is a search, and the calls seen before it are whole components, so
it takes exactly the calls linked to its seed. The seeds are the first calls of their components,
so the components come out in order and the sort at the end moves nothing.
-/

namespace Praxis

namespace DependencyGraph

open Component (Frontier First component components componentsBelow)
open Relation (ReflTransGen)

variable (G : DependencyGraph)

/-- Two calls are linked by a chain of conflicting calls. -/
abbrev Linked : ℕ → ℕ → Prop := ReflTransGen G.Conflict

/-- What the flags of `visited` say. -/
def Seen (visited : List Bool) (i : ℕ) : Prop := visited.getD i false = true

variable {G}

theorem linked_lt {i j : ℕ} (h : G.Linked i j) (hi : i < G.size) : j < G.size := by
  induction h with
  | refl => exact hi
  | tail _ hc _ => exact (has_conflict_iff.1 hc).2.2.1

theorem seen_set {visited : List Bool} {s : ℕ} (hs : s < visited.length) (i : ℕ) :
    Seen (visited.set s true) i ↔ Seen visited i ∨ i = s := by
  unfold Seen
  rw [List.getD_eq_getElem?_getD, List.getD_eq_getElem?_getD, List.getElem?_set]
  by_cases h : s = i
  · subst h
    simp [hs]
  · rw [if_neg h]
    exact ⟨.inl, fun h' => h'.resolve_right (Ne.symm h)⟩

section Scan

variable {v : ℕ} {st : SearchState} {i : ℕ}

/-- The calls of `l` that the scan queues for `v`. -/
def unseenNeighbours (G : DependencyGraph) (v : ℕ) (visited : List Bool) (l : List ℕ) : List ℕ :=
  l.filter fun i => !visited.getD i false && G.has_conflict v i

theorem mem_unseenNeighbours {visited : List Bool} {l : List ℕ} :
    i ∈ G.unseenNeighbours v visited l ↔ i ∈ l ∧ G.Conflict v i ∧ ¬ Seen visited i := by
  simp [unseenNeighbours, Seen, and_comm]

theorem unseenNeighbours_single (G : DependencyGraph) (v i : ℕ) (visited : List Bool) :
    G.unseenNeighbours v visited [i]
      = if !visited.getD i false && G.has_conflict v i then [i] else [] := by
  unfold unseenNeighbours
  rw [List.filter_cons, List.filter_nil]

theorem visitCall_length : (G.visitCall v st i).visited.length = st.visited.length := by
  unfold visitCall
  split_ifs <;> simp

theorem seen_visitCall (hi : i < st.visited.length) (a : ℕ) :
    Seen (G.visitCall v st i).visited a
      ↔ Seen st.visited a ∨ a ∈ G.unseenNeighbours v st.visited [i] := by
  unfold visitCall
  split_ifs with h
  · rw [seen_set hi, unseenNeighbours_single, if_pos h, List.mem_singleton]
  · rw [unseenNeighbours_single, if_neg h]
    simp

theorem visitCall_q :
    (G.visitCall v st i).q = st.q ++ G.unseenNeighbours v st.visited [i] := by
  unfold visitCall
  split_ifs with h
  · rw [unseenNeighbours_single, if_pos h]
  · rw [unseenNeighbours_single, if_neg h, List.append_nil]

/-- What the scan of other calls sees leaves the flag of `i` alone. -/
theorem unseenNeighbours_visitCall {l : List ℕ} (hl : i ∉ l) (hi : i < st.visited.length) :
    G.unseenNeighbours v (G.visitCall v st i).visited l = G.unseenNeighbours v st.visited l := by
  refine List.filter_congr fun j hj => ?_
  have hne : j ≠ i := fun h => hl (h ▸ hj)
  have hiff : Seen (G.visitCall v st i).visited j ↔ Seen st.visited j := by
    rw [seen_visitCall hi, mem_unseenNeighbours, List.mem_singleton]
    exact or_iff_left fun h => hne h.1
  rw [Bool.eq_iff_iff.2 hiff]

/-- The scan queues the unseen neighbours, in order, and marks them. -/
theorem scan_spec : ∀ (l : List ℕ) (st : SearchState), l.Nodup → (∀ i ∈ l, i < st.visited.length) →
    (l.foldl (G.visitCall v) st).q = st.q ++ G.unseenNeighbours v st.visited l
      ∧ (l.foldl (G.visitCall v) st).visited.length = st.visited.length
      ∧ ∀ a, Seen (l.foldl (G.visitCall v) st).visited a
        ↔ Seen st.visited a ∨ a ∈ G.unseenNeighbours v st.visited l
  | [], st, _, _ => by simp [unseenNeighbours]
  | i :: l, st, hnd, hlt => by
    have hi := hlt i List.mem_cons_self
    obtain ⟨hq, hlen, hseen⟩ := scan_spec l (G.visitCall v st i) hnd.of_cons fun j hj => by
      rw [visitCall_length]
      exact hlt j (List.mem_cons_of_mem _ hj)
    have hrest : G.unseenNeighbours v (G.visitCall v st i).visited l
        = G.unseenNeighbours v st.visited l := unseenNeighbours_visitCall hnd.notMem hi
    have hsplit : G.unseenNeighbours v st.visited (i :: l)
        = G.unseenNeighbours v st.visited [i] ++ G.unseenNeighbours v st.visited l :=
      List.filter_append [i] l
    rw [List.foldl_cons]
    refine ⟨?_, hlen.trans visitCall_length, fun a => ?_⟩
    · rw [hq, hrest, visitCall_q, hsplit, List.append_assoc]
    · rw [hseen, hrest, seen_visitCall hi, hsplit, List.mem_append, or_assoc]

theorem scan_calls (v : ℕ) (st : SearchState) (hlen : st.visited.length = G.size) :
    ((List.range G.size).foldl (G.visitCall v) st).q
        = st.q ++ G.unseenNeighbours v st.visited (List.range G.size)
      ∧ ((List.range G.size).foldl (G.visitCall v) st).visited.length = G.size
      ∧ ∀ a, Seen ((List.range G.size).foldl (G.visitCall v) st).visited a
        ↔ Seen st.visited a ∨ a ∈ G.unseenNeighbours v st.visited (List.range G.size) := by
  obtain ⟨hq, hlength, hseen⟩ := scan_spec (G := G) (v := v) (List.range G.size) st
    List.nodup_range fun i hi => by rw [hlen]; exact List.mem_range.1 hi
  exact ⟨hq, hlength.trans hlen, hseen⟩

end Scan

section Search

variable {old : ℕ → Prop} {seed : ℕ}

theorem frontier_scan {visited : List Bool} {v : ℕ} {q comp : List ℕ}
    (h : Frontier G.Conflict old seed (Seen visited) comp (v :: q))
    (hlen : visited.length = G.size) :
    Frontier G.Conflict old seed
      (Seen ((List.range G.size).foldl (G.visitCall v) ⟨visited, q⟩).visited) (comp ++ [v])
      ((List.range G.size).foldl (G.visitCall v) ⟨visited, q⟩).q := by
  obtain ⟨hq, -, hseen⟩ := scan_calls v ⟨visited, q⟩ hlen
  rw [hq]
  refine h.take (fun b => ?_) (List.nodup_range.filter _) hseen
  rw [mem_unseenNeighbours, List.mem_range]
  exact and_iff_right_of_imp fun hb => (has_conflict_iff.1 hb.1).2.2.1

/-- The loop ends with an empty queue, within a round for each call not yet taken. -/
theorem componentLoop_spec (hseed : seed < G.size) :
    ∀ (fuel : ℕ) (st : SearchState) (comp : List ℕ),
      Frontier G.Conflict old seed (Seen st.visited) comp st.q → st.visited.length = G.size →
        G.size ≤ fuel + comp.length →
          ∃ visited comp', G.componentLoop fuel st comp = some (visited, comp')
            ∧ visited.length = G.size ∧ Frontier G.Conflict old seed (Seen visited) comp' []
  | 0, ⟨visited, q⟩, comp, h, hlen, hfuel => by
    rcases q with _ | ⟨v, q⟩
    · exact ⟨visited, comp, rfl, hlen, h⟩
    · have hlt := h.done_length_lt fun a ha => List.mem_range.2 (linked_lt ha hseed)
      rw [List.length_range] at hlt
      omega
  | fuel + 1, ⟨visited, q⟩, comp, h, hlen, hfuel => by
    rcases q with _ | ⟨v, q⟩
    · exact ⟨visited, comp, rfl, hlen, h⟩
    · obtain ⟨-, hlen', -⟩ := scan_calls v ⟨visited, q⟩ hlen
      refine componentLoop_spec hseed fuel _ _ (frontier_scan h hlen) hlen' ?_
      rw [List.length_append, List.length_singleton]
      omega

end Search

section Seeds

/-- Before seed `k`: the components that begin before it are found, and their calls marked. -/
structure BeforeSeed (G : DependencyGraph) (k : ℕ) (st : List Bool × List (List ℕ)) : Prop where
  length : st.1.length = G.size
  seen : ∀ i, Seen st.1 i ↔ ∃ s < k, G.Linked s i
  found : st.2 = componentsBelow G.Conflict G.size k

theorem beforeSeed_zero : G.BeforeSeed 0 (List.replicate G.size false, []) where
  length := List.length_replicate
  seen := fun i => by
    simp only [Seen, List.getD_eq_getElem?_getD, List.getElem?_replicate, Nat.not_lt_zero,
      false_and, exists_false, iff_false]
    split <;> simp
  found := rfl

theorem seen_iff_not_first {k : ℕ} {st : List Bool × List (List ℕ)} (h : G.BeforeSeed k st) :
    Seen st.1 k ↔ ¬ First G.Conflict k := by
  rw [h.seen, First]
  push Not
  rfl

theorem sort_component {comp : List ℕ} {s n : ℕ} (hnd : comp.Nodup)
    (h : ∀ i, i ∈ comp ↔ i ∈ component G.Conflict n s) :
    comp.insertionSort (· ≤ ·) = component G.Conflict n s := by
  have hasc := Component.component_ascending (R := G.Conflict) n s
  have hperm : comp.Perm (component G.Conflict n s) :=
    (List.perm_ext_iff_of_nodup hnd (hasc.imp fun h => ne_of_lt h)).2 h
  exact ((List.perm_insertionSort _ _).trans hperm).eq_of_pairwise'
    (List.pairwise_insertionSort _ _) (hasc.imp fun h => h.le)

theorem componentSeed_spec {fuel k : ℕ} {st : List Bool × List (List ℕ)} (hfuel : G.size ≤ fuel)
    (hk : k < G.size) (h : G.BeforeSeed k st) :
    ∃ st', G.componentSeed fuel st k = some st' ∧ G.BeforeSeed (k + 1) st' := by
  have hlink : ∀ i, (∃ s < k + 1, G.Linked s i) ↔ (∃ s < k, G.Linked s i) ∨ G.Linked k i := by
    intro i
    constructor
    · rintro ⟨s, hs, hl⟩
      rcases Nat.lt_succ_iff_lt_or_eq.1 hs with hs | rfl
      · exact .inl ⟨s, hs, hl⟩
      · exact .inr hl
    · rintro (⟨s, hs, hl⟩ | hl)
      · exact ⟨s, hs.trans (Nat.lt_succ_self k), hl⟩
      · exact ⟨k, Nat.lt_succ_self k, hl⟩
  unfold componentSeed
  split_ifs with hseen
  · have hnot := (seen_iff_not_first h).1 hseen
    refine ⟨st, rfl, h.length, fun i => ?_, ?_⟩
    · rw [h.seen, hlink, or_iff_left_of_imp]
      intro hl
      obtain ⟨s, hs, hsk⟩ := (h.seen k).1 hseen
      exact ⟨s, hs, hsk.trans hl⟩
    · rw [h.found, Component.componentsBelow_succ, if_neg hnot, List.append_nil]
  · have hfirst : First G.Conflict k := by
      by_contra hn
      exact hseen ((seen_iff_not_first h).2 hn)
    have hkl : k < st.1.length := by rw [h.length]; exact hk
    obtain ⟨visited, comp, hrun, hlen, hend⟩ := componentLoop_spec hk fuel
      ⟨st.1.set k true, [k]⟩ [] (Component.frontier_start hseen (seen_set hkl))
      (by rw [List.length_set, h.length]) (by simpa using hfuel)
    have hmem := hend.mem_done_iff (fun a b => conflict_symm) fun a b ha hab => by
      obtain ⟨s, hs, hl⟩ := (h.seen a).1 ha
      exact (h.seen b).2 ⟨s, hs, hl.tail hab⟩
    refine ⟨_, by rw [hrun]; rfl, hlen, fun i => ?_, ?_⟩
    · rw [hend.seen_iff, h.seen, List.append_nil, hmem, hlink]
    · have hnd : comp.Nodup := by simpa using hend.nodup
      have hsort := sort_component (n := G.size) (s := k) hnd fun i => by
        rw [hmem, Component.mem_component]
        exact (and_iff_right_of_imp fun hl => linked_lt hl hk).symm
      simp only [hsort]
      rw [h.found, Component.componentsBelow_succ, if_pos hfirst]

theorem componentSeeds_spec {fuel : ℕ} (hfuel : G.size ≤ fuel) : ∀ k ≤ G.size,
    ∃ st, (List.range k).foldlM (G.componentSeed fuel) (List.replicate G.size false, []) = some st
      ∧ G.BeforeSeed k st
  | 0, _ => ⟨_, rfl, beforeSeed_zero⟩
  | k + 1, hk => by
    obtain ⟨st, hst, hbefore⟩ := componentSeeds_spec hfuel k (by omega)
    obtain ⟨st', hst', hafter⟩ := componentSeed_spec hfuel (by omega) hbefore
    refine ⟨st', ?_, hafter⟩
    rw [List.range_succ, List.foldlM_append, hst]
    simp [hst']

end Seeds

section Result

/-- Of two ascending lists the one with an index below all of the other comes first. -/
theorem vectorLe_of_lt {C D : List ℕ} (hC : C.Pairwise (· < ·))
    (h : ∃ i ∈ C, (∀ j ∈ C, i ≤ j) ∧ ∀ j ∈ D, i < j) (hD : D ≠ []) : vectorLe C D = true := by
  obtain ⟨i, hi, hmin, hlt⟩ := h
  rcases C with _ | ⟨a, as⟩
  · rfl
  rcases D with _ | ⟨b, bs⟩
  · exact absurd rfl hD
  have hab : a < b := (List.mem_cons.1 hi).elim
    (fun h => h ▸ hlt b List.mem_cons_self)
    fun h => (List.rel_of_pairwise_cons hC h).trans (hlt b List.mem_cons_self)
  simp [vectorLe, hab]

theorem sort_components (G : DependencyGraph) :
    (components G.Conflict G.size).insertionSort (fun C D => vectorLe C D = true)
      = components G.Conflict G.size := by
  refine List.Pairwise.insertionSort_eq ?_
  refine (Component.components_ordered (fun a b => conflict_symm) G.size).imp_of_mem
    fun {C D} hC hD h => ?_
  exact vectorLe_of_lt (Component.components_ascending hC) h (Component.components_ne_nil hD)

theorem componentsFuel_eq_components {fuel : ℕ} (hfuel : G.size ≤ fuel) :
    G.componentsFuel fuel = some (components G.Conflict G.size) := by
  obtain ⟨st, hst, hend⟩ := componentSeeds_spec hfuel G.size le_rfl
  unfold componentsFuel
  rw [hst, Option.map_some, hend.found]
  exact congrArg some (sort_components G)

theorem weakly_connected_components_eq (G : DependencyGraph) :
    G.weakly_connected_components = components G.Conflict G.size := by
  unfold weakly_connected_components
  rw [componentsFuel_eq_components le_rfl, Option.getD_some]

/-- Every search has ended by the time its fuel is used up. -/
theorem componentsFuel_eq {fuel : ℕ} (hfuel : G.size ≤ fuel) :
    G.componentsFuel fuel = some G.weakly_connected_components := by
  rw [componentsFuel_eq_components hfuel, weakly_connected_components_eq]

/-- The components are the classes of the calls linked by chains of conflicts. -/
theorem components_exact (claims : List (ToolCall × List Str)) :
    (∀ fuel, claims.length ≤ fuel →
        (ofCalls claims).componentsFuel fuel = some (ofCalls claims).weakly_connected_components)
      ∧ (ofCalls claims).weakly_connected_components.flatten.Perm (List.range claims.length)
      ∧ (∀ i < claims.length, ∀ j < claims.length,
        (∃ C ∈ (ofCalls claims).weakly_connected_components, i ∈ C ∧ j ∈ C)
          ↔ ReflTransGen (fun a b => (ofCalls claims).has_conflict a b = true) i j)
      ∧ (∀ C ∈ (ofCalls claims).weakly_connected_components, C ≠ [] ∧ C.Pairwise (· < ·))
      ∧ (ofCalls claims).weakly_connected_components.Pairwise
        fun C D => ∃ i ∈ C, (∀ j ∈ C, i ≤ j) ∧ ∀ j ∈ D, i < j := by
  have hsymm : ∀ a b, (ofCalls claims).Conflict a b → (ofCalls claims).Conflict b a :=
    fun a b => conflict_symm
  refine ⟨fun fuel hfuel => componentsFuel_eq (by rwa [ofCalls_size]), ?_⟩
  rw [weakly_connected_components_eq, ofCalls_size]
  refine ⟨Component.components_perm hsymm _, fun i hi j hj => ?_, fun C hC => ?_,
    Component.components_ordered hsymm _⟩
  · exact Component.share_iff hsymm hi hj
  · exact ⟨Component.components_ne_nil hC, Component.components_ascending hC⟩

end Result

end DependencyGraph

end Praxis
