import Praxis.DependencyGraph
import Praxis.Lib.FirstFit

/-!
# `schedule` is first fit

One round of the `while (progress)` loop places every call and the next one finds nothing to do, so
the loop ends, and the groups are the classes of first fit on the conflict graph
(`schedule_eq_classes`). Conflicting calls get different groups, but the later one can get the
earlier group: a call in between that conflicts with both sides can be pushed back past it.
-/

namespace Praxis

namespace DependencyGraph

open FirstFit (place firstFit classes colour width depth)

variable (G : DependencyGraph)

/-- `has_conflict` as a relation on the calls' indices. -/
abbrev Conflict (i j : ℕ) : Prop := G.has_conflict i j = true

def conflicts (i : ℕ) : List ℕ := (List.range G.size).filter fun j => G.has_conflict i j

section Conflicts

variable {G}

theorem has_conflict_iff {a b : ℕ} :
    G.has_conflict a b = true
      ↔ a ≠ b ∧ a < G.size ∧ b < G.size ∧ ∃ r, r ∈ G.resources_at a ∧ r ∈ G.resources_at b := by
  unfold has_conflict
  split_ifs with h
  · simp only [false_iff]
    omega
  · simp only [List.any_eq_true, beq_iff_eq, exists_eq_right']
    exact ⟨fun ⟨r, h1, h2⟩ => ⟨by omega, by omega, by omega, r, h1, h2⟩,
      fun ⟨_, _, _, r, h1, h2⟩ => ⟨r, h1, h2⟩⟩

theorem conflict_symm {a b : ℕ} (h : G.Conflict a b) : G.Conflict b a := by
  obtain ⟨h1, h2, h3, r, h4, h5⟩ := has_conflict_iff.1 h
  exact has_conflict_iff.2 ⟨h1.symm, h3, h2, r, h5, h4⟩

theorem mem_conflicts {i j : ℕ} : j ∈ G.conflicts i ↔ G.Conflict i j := by
  simp only [conflicts, List.mem_filter, List.mem_range, and_iff_right_iff_imp]
  exact fun h => (has_conflict_iff.1 h).2.2.1

end Conflicts

section OfCalls

theorem ofCalls_fields (claims : List (ToolCall × List Str)) (G : DependencyGraph) :
    (claims.foldl (fun G c => G.add_call c.1 c.2) G).calls = G.calls ++ claims.map Prod.fst
      ∧ (claims.foldl (fun G c => G.add_call c.1 c.2) G).resources
        = G.resources ++ claims.map Prod.snd := by
  induction claims generalizing G with
  | nil => simp
  | cons c cs ih =>
    obtain ⟨h1, h2⟩ := ih (G.add_call c.1 c.2)
    simp only [List.foldl_cons, List.map_cons]
    exact ⟨by rw [h1]; simp [add_call], by rw [h2]; simp [add_call]⟩

@[simp] theorem ofCalls_size (claims : List (ToolCall × List Str)) :
    (ofCalls claims).size = claims.length := by
  simp [size, ofCalls, (ofCalls_fields claims {}).1]

theorem ofCalls_resources_at (claims : List (ToolCall × List Str)) (i : ℕ) :
    (ofCalls claims).resources_at i = ((claims[i]?).map Prod.snd).getD [] := by
  simp [resources_at, ofCalls, (ofCalls_fields claims {}).2, List.getD_eq_getElem?_getD]

end OfCalls

section Loop

theorem find?_range_eq_findIdx? {α : Type*} (p : α → Bool) (d : α) :
    ∀ l : List α, (List.range l.length).find? (fun k => p (l.getD k d)) = l.findIdx? p
  | [] => rfl
  | a :: l => by
    have ih := find?_range_eq_findIdx? p d l
    rw [List.length_cons, List.range_succ_eq_map, List.find?_cons, List.findIdx?_cons]
    simp only [List.getD_cons_zero]
    cases p a
    · simp only [Bool.false_eq_true, if_false, List.find?_map, Function.comp_def,
        List.getD_cons_succ]
      rw [ih]
    · rfl

/-- A call not placed yet is placed by first fit. -/
theorem scheduleCall_eq {st : ScheduleState} {i : ℕ} (hg : st.next_group = st.groups.length)
    (hi : st.assignment.getD i none = none) :
    (G.scheduleCall st i).groups = place G.Conflict st.groups i
      ∧ (G.scheduleCall st i).next_group = (G.scheduleCall st i).groups.length
      ∧ (∃ g, (G.scheduleCall st i).assignment = st.assignment.set i (some g))
      ∧ (st.progress = true → (G.scheduleCall st i).progress = true) := by
  have hfind : (List.range st.next_group).find? (fun g =>
        (st.groups.getD g []).all fun j => !G.has_conflict i j)
      = st.groups.findIdx? fun c => decide (∀ j ∈ c, ¬ G.Conflict i j) := by
    rw [hg, find?_range_eq_findIdx? (fun c => c.all fun j => !G.has_conflict i j) []]
    congr 1
    funext c
    rw [Bool.eq_iff_iff]
    simp
  unfold scheduleCall place
  rw [hi, hfind]
  simp only [Option.isSome_none, Bool.false_eq_true, if_false]
  rcases st.groups.findIdx? fun c => decide (∀ j ∈ c, ¬ G.Conflict i j) with _ | g
  · exact ⟨rfl, by simp [hg], ⟨_, rfl⟩, fun _ => rfl⟩
  · exact ⟨rfl, by simp [hg], ⟨_, rfl⟩, id⟩

theorem scheduleCall_placed {st : ScheduleState} {i : ℕ}
    (hi : (st.assignment.getD i none).isSome = true) : G.scheduleCall st i = st := by
  unfold scheduleCall
  rw [if_pos hi]

/-- Within the first round, before call `i`. -/
structure FirstRound (i : ℕ) (st : ScheduleState) : Prop where
  length : st.assignment.length = G.size
  placed : ∀ k, k < i → (st.assignment.getD k none).isSome = true
  unplaced : ∀ k, i ≤ k → st.assignment.getD k none = none
  groups : st.groups = firstFit G.Conflict i
  next : st.next_group = st.groups.length
  progress : 0 < i → st.progress = true

theorem firstRound_zero : G.FirstRound 0 G.scheduleStart.restart where
  length := by simp [scheduleStart, ScheduleState.restart]
  placed := fun k hk => absurd hk (Nat.not_lt_zero k)
  unplaced := fun k _ => by
    simp only [scheduleStart, ScheduleState.restart, List.getD_eq_getElem?_getD,
      List.getElem?_replicate]
    split <;> rfl
  groups := rfl
  next := rfl
  progress := fun h => absurd h (Nat.lt_irrefl 0)

/-- First fit opens a class for the first vertex. -/
theorem scheduleCall_progress {st : ScheduleState} (h : G.FirstRound 0 st) :
    (G.scheduleCall st 0).progress = true := by
  have hn : st.next_group = 0 := by rw [h.next, h.groups]; rfl
  unfold scheduleCall
  rw [h.unplaced 0 le_rfl, hn]
  rfl

theorem firstRound_succ {i : ℕ} {st : ScheduleState} (hi : i < G.size) (h : G.FirstRound i st) :
    G.FirstRound (i + 1) (G.scheduleCall st i) := by
  obtain ⟨h1, h2, ⟨g, h3⟩, h4⟩ := G.scheduleCall_eq h.next (h.unplaced i le_rfl)
  have hget : ∀ k, (G.scheduleCall st i).assignment.getD k none
      = if i = k then some g else st.assignment.getD k none := by
    intro k
    rw [h3]
    simp only [List.getD_eq_getElem?_getD, List.getElem?_set, h.length, hi, if_true]
    split <;> rfl
  refine ⟨by rw [h3, List.length_set, h.length], fun k hk => ?_, fun k hk => ?_, ?_, h2,
    fun _ => ?_⟩
  · rw [hget]
    split_ifs with he
    · rfl
    · exact h.placed k (by omega)
  · rw [hget, if_neg (by omega)]
    exact h.unplaced k (by omega)
  · rw [h1, h.groups]
    unfold firstFit
    rw [List.range_succ, List.foldl_append]
    rfl
  · rcases Nat.eq_zero_or_pos i with rfl | hpos
    · exact G.scheduleCall_progress h
    · exact h4 (h.progress hpos)

theorem firstRound_run : ∀ i ≤ G.size, G.FirstRound i
    ((List.range i).foldl G.scheduleCall G.scheduleStart.restart)
  | 0, _ => G.firstRound_zero
  | i + 1, hi => by
    rw [List.range_succ, List.foldl_append]
    exact G.firstRound_succ hi (firstRound_run i (by omega))

/-- Once every call is placed a round changes nothing and reports no progress. -/
theorem schedulePass_placed {st : ScheduleState}
    (h : ∀ k, k < G.size → (st.assignment.getD k none).isSome = true) :
    G.schedulePass st = st.restart := by
  have hfold : ∀ l : List ℕ, (∀ k ∈ l, k < G.size) →
      l.foldl G.scheduleCall st.restart = st.restart := by
    intro l
    induction l with
    | nil => intro _; rfl
    | cons k l ih =>
      intro hl
      have hk : G.scheduleCall st.restart k = st.restart :=
        G.scheduleCall_placed (h k (hl k List.mem_cons_self))
      rw [List.foldl_cons, hk]
      exact ih fun j hj => hl j (List.mem_cons_of_mem _ hj)
  exact hfold _ fun k hk => List.mem_range.1 hk

/-- The loop ends in its second round. -/
theorem scheduleLoop_start {fuel : ℕ} (hf : 2 ≤ fuel) (hpos : 0 < G.size) :
    ∃ st, G.scheduleLoop fuel G.scheduleStart = some st
      ∧ st.groups = firstFit G.Conflict G.size := by
  obtain ⟨f, rfl⟩ : ∃ f, fuel = f + 2 := ⟨fuel - 2, by omega⟩
  have h := G.firstRound_run G.size le_rfl
  have hpass : G.schedulePass G.scheduleStart
      = (List.range G.size).foldl G.scheduleCall G.scheduleStart.restart := rfl
  rw [← hpass] at h
  refine ⟨(G.schedulePass G.scheduleStart).restart, ?_, h.groups⟩
  have hlast : ∀ f (st : ScheduleState), G.scheduleLoop f st.restart = some st.restart := by
    intro f st
    cases f <;> simp [scheduleLoop, ScheduleState.restart]
  rw [scheduleLoop, if_pos (show G.scheduleStart.progress = true from rfl), scheduleLoop,
    if_pos (h.progress hpos), G.schedulePass_placed h.placed]
  exact hlast f _

end Loop

theorem sort_firstFit (R : ℕ → ℕ → Prop) [DecidableRel R] (n : ℕ) :
    (firstFit R n).map (List.insertionSort (· ≤ ·)) = classes R n := by
  rw [FirstFit.firstFit_eq_classes]
  refine (List.map_congr_left fun g hg => ?_).trans (List.map_id _)
  exact ((FirstFit.classes_ascending hg).imp fun h => h.le).insertionSort_eq

/-- Two rounds are enough, and the groups are the classes of first fit. -/
theorem scheduleFuel_eq_classes {fuel : ℕ} (hf : 2 ≤ fuel ∨ G.size = 0) :
    G.scheduleFuel fuel = some (classes G.Conflict G.size) := by
  unfold scheduleFuel
  split_ifs with he
  · have h0 : G.size = 0 := by simpa [size] using he
    rw [h0]
    rfl
  · have hpos : 0 < G.size := by
      unfold size
      exact List.length_pos_iff.2 fun h => he (by rw [h]; rfl)
    obtain ⟨st, h1, h2⟩ := G.scheduleLoop_start (hf.resolve_right hpos.ne') hpos
    rw [h1, Option.map_some, h2, sort_firstFit]

theorem schedule_eq_classes : G.schedule = classes G.Conflict G.size := by
  unfold schedule
  rw [G.scheduleFuel_eq_classes (by omega), Option.getD_some]

/-- The loop has ended by the time its fuel is used up. -/
theorem scheduleFuel_eq {fuel : ℕ} (hf : 2 ≤ fuel) : G.scheduleFuel fuel = some G.schedule := by
  rw [G.scheduleFuel_eq_classes (.inl hf), schedule_eq_classes]

section Groups

variable {G}

/-- The index of the group that holds call `i`. -/
def group_of (G : DependencyGraph) (i : ℕ) : ℕ := G.schedule.findIdx fun g => g.contains i

theorem schedule_length : G.schedule.length = width G.Conflict G.size := by
  rw [schedule_eq_classes, FirstFit.classes_length]

theorem mem_schedule_getElem? {c i : ℕ} {g : List ℕ} (h : G.schedule[c]? = some g) :
    i ∈ g ↔ i < G.size ∧ colour G.Conflict i = c := by
  have hc : c < width G.Conflict G.size := by
    rw [← schedule_length]
    exact (List.getElem?_eq_some_iff.1 h).1
  rw [schedule_eq_classes, FirstFit.classes_getElem? hc, Option.some.injEq] at h
  subst h
  simp

theorem schedule_getElem? {c : ℕ} (hc : c < width G.Conflict G.size) :
    G.schedule[c]? = some ((List.range G.size).filter fun i => colour G.Conflict i = c) := by
  rw [schedule_eq_classes, FirstFit.classes_getElem? hc]

theorem group_of_eq_colour {i : ℕ} (hi : i < G.size) : G.group_of i = colour G.Conflict i := by
  have hlt : colour G.Conflict i < G.schedule.length := by
    rw [schedule_length]
    exact FirstFit.colour_lt_width hi
  have hmem : ∀ c (h : c < G.schedule.length),
      G.schedule[c].contains i = true ↔ colour G.Conflict i = c := by
    intro c h
    rw [List.contains_iff_mem, mem_schedule_getElem? (List.getElem?_eq_getElem h)]
    exact and_iff_right hi
  refine (List.findIdx_eq hlt).2 ⟨(hmem _ hlt).2 rfl, fun c hc => ?_⟩
  rw [Bool.eq_false_iff, ne_eq, hmem c (hc.trans hlt)]
  omega

theorem schedule_no_conflict {g : List ℕ} (hg : g ∈ G.schedule) {i j : ℕ} (hi : i ∈ g)
    (hj : j ∈ g) : ¬ G.Conflict i j := by
  obtain ⟨c, hc⟩ := List.getElem?_of_mem hg
  rw [mem_schedule_getElem? hc] at hi hj
  intro h
  rcases Nat.lt_trichotomy i j with hlt | rfl | hlt
  · exact FirstFit.colour_ne hlt (conflict_symm h) (hi.2.trans hj.2.symm)
  · exact (has_conflict_iff.1 h).1 rfl
  · exact FirstFit.colour_ne hlt h (hj.2.trans hi.2.symm)

/-- A call conflicts with an earlier one in each group before its own. -/
theorem schedule_tight {c d i : ℕ} {g : List ℕ} (hd : d < c) (hc : G.schedule[c]? = some g)
    (hi : i ∈ g) : ∃ g', G.schedule[d]? = some g' ∧ ∃ j ∈ g', j < i ∧ G.Conflict i j := by
  obtain ⟨hn, rfl⟩ := (mem_schedule_getElem? hc).1 hi
  obtain ⟨k, hk, hR, rfl⟩ := FirstFit.exists_of_lt_colour hd
  have hkn : k < G.size := hk.trans hn
  have hg' := schedule_getElem? (G := G) (FirstFit.colour_lt_width (R := G.Conflict) hkn)
  exact ⟨_, hg', k, (mem_schedule_getElem? hg').2 ⟨hkn, rfl⟩, hk, hR⟩

theorem schedule_length_le :
    G.schedule.length ≤ 1 + (Finset.range G.size).sup fun i => (G.conflicts i).length := by
  rw [schedule_length]
  refine Finset.sup_le fun j hj => ?_
  have hcard : ((Finset.range j).filter fun k => G.Conflict j k).card
      ≤ (G.conflicts j).length := by
    have hsub : (Finset.range j).filter (fun k => G.Conflict j k) ⊆ (G.conflicts j).toFinset := by
      intro k hk
      rw [List.mem_toFinset, mem_conflicts]
      exact (Finset.mem_filter.1 hk).2
    exact (Finset.card_le_card hsub).trans (List.toFinset_card_le _)
  have hcol := FirstFit.colour_le_card (R := G.Conflict) j
  have hsup := Finset.le_sup (f := fun i => (G.conflicts i).length) hj
  omega

/-- `schedule` ends, and what it returns is a tight colouring of the conflict graph. -/
theorem schedule_valid_and_tight (claims : List (ToolCall × List Str)) :
    (∀ fuel, 2 ≤ fuel → (ofCalls claims).scheduleFuel fuel = some (ofCalls claims).schedule)
      ∧ (∀ g ∈ (ofCalls claims).schedule, g ≠ [] ∧ g.Pairwise (· < ·))
      ∧ (ofCalls claims).schedule.flatten.Perm (List.range claims.length)
      ∧ (∀ g ∈ (ofCalls claims).schedule, ∀ i ∈ g, ∀ j ∈ g, i ≠ j →
        (ofCalls claims).has_conflict i j = false)
      ∧ (∀ (c d i : ℕ) (g : List ℕ), d < c → (ofCalls claims).schedule[c]? = some g → i ∈ g →
        ∃ g', (ofCalls claims).schedule[d]? = some g'
          ∧ ∃ j ∈ g', j < i ∧ (ofCalls claims).has_conflict i j = true)
      ∧ (ofCalls claims).schedule.length
        ≤ 1 + (Finset.range claims.length).sup fun i => ((ofCalls claims).conflicts i).length := by
  refine ⟨fun fuel hf => scheduleFuel_eq _ hf, fun g hg => ?_, ?_, fun g hg i hi j hj _ => ?_,
    fun c d i g hd hc hi => schedule_tight hd hc hi, ?_⟩
  · rw [schedule_eq_classes] at hg
    exact ⟨FirstFit.classes_ne_nil hg, FirstFit.classes_ascending hg⟩
  · rw [schedule_eq_classes, ← ofCalls_size claims]
    exact FirstFit.classes_perm _
  · exact Bool.eq_false_iff.2 (schedule_no_conflict hg hi hj)
  · have := schedule_length_le (G := ofCalls claims)
    rwa [ofCalls_size] at this

/-- Conflicting calls get different groups. The earlier call gets the earlier group, for every
conflicting pair, exactly when each call conflicts with an earlier one at each depth below its
own. -/
theorem group_order_iff (claims : List (ToolCall × List Str)) :
    (∀ i j, (ofCalls claims).has_conflict i j = true →
        (ofCalls claims).group_of i ≠ (ofCalls claims).group_of j)
      ∧ ((∀ i j, i < j → (ofCalls claims).has_conflict i j = true →
          (ofCalls claims).group_of i < (ofCalls claims).group_of j)
        ↔ ∀ j < claims.length, ∀ d < depth (ofCalls claims).Conflict j,
          ∃ k < j, (ofCalls claims).has_conflict j k = true
            ∧ depth (ofCalls claims).Conflict k = d) := by
  refine ⟨fun i j h => ?_, ?_⟩
  · obtain ⟨hne, hi, hj, -⟩ := has_conflict_iff.1 h
    rw [group_of_eq_colour hi, group_of_eq_colour hj]
    rcases Nat.lt_or_gt_of_ne hne with hlt | hlt
    · exact FirstFit.colour_ne hlt (conflict_symm h)
    · exact (FirstFit.colour_ne hlt h).symm
  · have hinc := FirstFit.increasing_iff (R := (ofCalls claims).Conflict) claims.length
    refine Iff.trans ⟨fun h j hj i hij hR => ?_, fun h i j hij hR => ?_⟩ hinc
    · have hn : j < (ofCalls claims).size := by rwa [ofCalls_size]
      rw [← group_of_eq_colour hn, ← group_of_eq_colour (hij.trans hn)]
      exact h i j hij (conflict_symm hR)
    · obtain ⟨-, hi, hj, -⟩ := has_conflict_iff.1 hR
      rw [group_of_eq_colour hi, group_of_eq_colour hj]
      rw [ofCalls_size] at hj
      exact h j hj i hij (conflict_symm hR)

/-- A `write_file` with an empty path, a `write_file` to `*` and a `read_file` of `*`. -/
def starClaims : List (ToolCall × List Str) :=
  [({ name := "write_file" }, ["file:write:*"]),
    ({ name := "write_file" }, ["file:read:*", "file:write:*"]),
    ({ name := "read_file" }, ["file:read:*"])]

/-- The read conflicts with the write before it, and gets the group before that write's. -/
theorem schedule_reorders : (ofCalls starClaims).has_conflict 1 2 = true
    ∧ ¬ (ofCalls starClaims).group_of 1 < (ofCalls starClaims).group_of 2 := by
  decide

end Groups

end DependencyGraph

end Praxis
