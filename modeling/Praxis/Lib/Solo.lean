import Praxis.Lib.Interleave

/-!
# A part of the world for one member at a time

A part of the world is given by a map `π`. A process is off the part if none of its actions changes
it, and on it if all that it does follows from the part alone, where it does what another process
does in a smaller world. If at most one member of each group is on the part, these members act on it
one after the other, whatever the others do and however the groups are interleaved
(`Scheduler.runGroups_solo`).
-/

namespace Interleave

variable {W V R T ι : Type} {π : W → V}

namespace Proc

/-- No action of the process changes the part. -/
abbrev Off (π : W → V) (p : Proc W R) : Prop := Keeps (fun w w' => π w' = π w) p

/-- On the part, the first process does what the second does. -/
inductive On (π : W → V) : Proc W R → Proc V R → Prop
  | ret {r : R} : On π (ret r) (ret r)
  | act {f : W → W} {g : V → V} {k : W → Proc W R} {m : V → Proc V R} (hf : ∀ w, π (f w) = g (π w))
    (hk : ∀ w, On π (k w) (m (π w))) : On π (act f k) (act g m)

namespace On

variable {p : Proc W R} {q : Proc V R}

theorem bind {x : R → Proc W T} {y : R → Proc V T} (h : On π p q) (hxy : ∀ r, On π (x r) (y r)) :
    On π (p >>= x) (q >>= y) := by
  show On π (p.bind x) (q.bind y)
  induction h with
  | ret => exact hxy _
  | act hf _ ih => exact .act hf ih

theorem step {f : W → R × W} {g : V → R × V}
    (h : ∀ w, (f w).1 = (g (π w)).1 ∧ π (f w).2 = (g (π w)).2) : On π (Proc.step f) (Proc.step g) :=
  .act (fun w => (h w).2) fun w => (h w).1 ▸ .ret

end On

end Proc

/-! ## One group -/

section Group

variable {loud : ι → Bool} {p : ι → Proc V R} {v : V}

/-- How far the member of a pool has come that is on the part, if there is one. -/
inductive Solo (π : W → V) (loud : ι → Bool) (p : ι → Proc V R) (v : V) (s : Pool ι W R) : Prop
  | waiting (hlive : ∀ x ∈ s.live, loud x.1 = false) (hdone : ∀ x ∈ s.done, loud x.1 = false)
    (hworld : π s.world = v)
  | acting {i : ι} {x : Proc W R} {y : Proc V R} (hi : loud i = true) (hmem : (i, x) ∈ s.live)
    (hon : x.On π y) (hrun : y.run (π s.world) = (p i).run v)
  | ended {i : ι} {r : R} (hi : loud i = true) (hmem : (i, r) ∈ s.done)
    (hrun : (r, π s.world) = (p i).run v)

variable {w : W} {queue : List ι} {live live₁ live₂ : List (ι × Proc W R)} {done : List (ι × R)}
  {i : ι} {x : Proc W R}

/-- If a member in the queue is on the part, no other is. -/
theorem quiet_of_queue (hi : loud i = true)
    (hcount : (Pool.mk w (i :: queue) live done).members.countP loud ≤ 1) :
    (∀ z ∈ live, loud z.1 = false) ∧ ∀ z ∈ done, loud z.1 = false := by
  simp only [Pool.members, List.countP_append, List.countP_cons, hi, if_true] at hcount
  have hlive : (live.map Prod.fst).countP loud = 0 := by omega
  have hdone : (done.map Prod.fst).countP loud = 0 := by omega
  simp only [List.countP_eq_zero, List.forall_mem_map, Bool.not_eq_true] at hlive hdone
  exact ⟨hlive, hdone⟩

/-- If a running member is on the part, no other is. -/
theorem quiet_of_live (hi : loud i = true)
    (hcount : (Pool.mk w queue (live₁ ++ (i, x) :: live₂) done).members.countP loud ≤ 1) :
    (∀ z ∈ live₁ ++ live₂, loud z.1 = false) ∧ ∀ z ∈ done, loud z.1 = false := by
  simp only [Pool.members, List.countP_append, List.map_append, List.map_cons, List.countP_cons, hi,
    if_true] at hcount
  have hlive : ((live₁ ++ live₂).map Prod.fst).countP loud = 0 := by
    rw [List.map_append, List.countP_append]
    omega
  have hdone : (done.map Prod.fst).countP loud = 0 := by omega
  simp only [List.countP_eq_zero, List.forall_mem_map, Bool.not_eq_true] at hlive hdone
  exact ⟨hlive, hdone⟩

variable {spawn : ι → W → Proc W R × W}

theorem Solo.launch (hlaunch : ∀ j w, π (spawn j w).2 = π w)
    (hon : ∀ w, loud i = true → (spawn i w).1.On π (p i))
    (hcount : (Pool.mk w (i :: queue) live done).members.countP loud ≤ 1)
    (h : Solo π loud p v ⟨w, i :: queue, live, done⟩) :
    Solo π loud p v ⟨(spawn i w).2, queue, live ++ [(i, (spawn i w).1)], done⟩ := by
  cases hi : loud i with
  | true =>
    obtain ⟨hlive, hdone⟩ := quiet_of_queue hi hcount
    cases h with
    | waiting _ _ hworld =>
      refine .acting hi (List.mem_append_right _ (List.mem_singleton_self _)) (hon w hi) ?_
      show (p i).run (π (spawn i w).2) = _
      rw [hlaunch, hworld]
    | acting hj hmem => exact absurd (hlive _ hmem) (by simp [hj])
    | ended hj hmem => exact absurd (hdone _ hmem) (by simp [hj])
  | false =>
    cases h with
    | waiting hlive hdone hworld =>
      refine .waiting (fun z hz => ?_) hdone ((hlaunch i w).trans hworld)
      rcases List.mem_append.1 hz with hz | hz
      · exact hlive z hz
      · rw [List.mem_singleton.1 hz]
        exact hi
    | acting hj hmem hy hrun =>
      exact .acting hj (List.mem_append_left _ hmem) hy ((congrArg _ (hlaunch i w)).trans hrun)
    | ended hj hmem hrun => exact .ended hj hmem ((congrArg _ (hlaunch i w)).trans hrun)

/-- The member with a loud number among running ones that are quiet otherwise. -/
theorem eq_of_mem_live {j : ι} {y : Proc W R} (hj : loud j = true)
    (hquiet : ∀ z ∈ live₁ ++ live₂, loud z.1 = false) (hmem : (j, y) ∈ live₁ ++ (i, x) :: live₂) :
    (j, y) = (i, x) := by
  rw [List.mem_append, List.mem_cons, or_left_comm, ← List.mem_append] at hmem
  rcases hmem with h | h
  · exact h
  · exact absurd (hquiet _ h) (by simp [hj])

/-- The other running members stay what they are. -/
theorem mem_live_of_ne {j : ι} {y z : Proc W R} (hne : (j, y) ≠ (i, x))
    (hmem : (j, y) ∈ live₁ ++ (i, x) :: live₂) : (j, y) ∈ live₁ ++ (i, z) :: live₂ := by
  simp only [List.mem_append, List.mem_cons] at hmem ⊢
  rcases hmem with h | h | h
  · exact .inl h
  · exact absurd h hne
  · exact .inr (.inr h)

theorem Solo.act {f : W → W} {k : W → Proc W R}
    (hoff : loud i = false → ∀ w, π (f w) = π w)
    (hcount : (Pool.mk w queue (live₁ ++ (i, .act f k) :: live₂) done).members.countP loud ≤ 1)
    (h : Solo π loud p v ⟨w, queue, live₁ ++ (i, .act f k) :: live₂, done⟩) :
    Solo π loud p v ⟨f w, queue, live₁ ++ (i, k w) :: live₂, done⟩ := by
  cases hi : loud i with
  | true =>
    obtain ⟨hlive, hdone⟩ := quiet_of_live hi hcount
    cases h with
    | waiting hall => exact absurd (hall (i, .act f k) (by simp)) (by simp [hi])
    | acting hj hmem hon hrun =>
      obtain ⟨rfl, rfl⟩ := Prod.mk.inj (eq_of_mem_live hj hlive hmem)
      cases hon with
      | act hf hk =>
      refine .acting hj (by simp) (hk w) ?_
      show Proc.run _ (π (f w)) = _
      rw [hf, ← hrun]
      rfl
    | ended hj hmem => exact absurd (hdone _ hmem) (by simp [hj])
  | false =>
    have hworld : π (f w) = π w := hoff hi w
    cases h with
    | waiting hlive hdone hv =>
      refine .waiting (fun z hz => ?_) hdone (hworld.trans hv)
      simp only [List.mem_append, List.mem_cons] at hz
      rcases hz with hz | rfl | hz
      · exact hlive z (by simp [hz])
      · exact hi
      · exact hlive z (by simp [hz])
    | acting hj hmem hon hrun =>
      refine .acting hj (mem_live_of_ne (fun he => ?_) hmem) hon ((congrArg _ hworld).trans hrun)
      rw [(Prod.mk.inj he).1, hi] at hj
      cases hj
    | ended hj hmem hrun => exact .ended hj hmem ((congrArg _ hworld).trans hrun)

theorem Solo.finish {r : R}
    (hcount : (Pool.mk w queue (live₁ ++ (i, .ret r) :: live₂) done).members.countP loud ≤ 1)
    (h : Solo π loud p v ⟨w, queue, live₁ ++ (i, .ret r) :: live₂, done⟩) :
    Solo π loud p v ⟨w, queue, live₁ ++ live₂, done ++ [(i, r)]⟩ := by
  cases h with
  | waiting hlive hdone hv =>
    refine .waiting (fun z hz => hlive z ?_) (fun z hz => ?_) hv
    · simp only [List.mem_append, List.mem_cons] at hz ⊢
      tauto
    · rcases List.mem_append.1 hz with hz | hz
      · exact hdone z hz
      · rw [List.mem_singleton.1 hz]
        exact hlive (i, .ret r) (by simp)
  | @acting j y q hj hmem hon hrun =>
    cases hi : loud i with
    | true =>
      obtain ⟨rfl, rfl⟩ := Prod.mk.inj (eq_of_mem_live hj (quiet_of_live hi hcount).1 hmem)
      cases hon
      exact .ended hj (by simp) hrun
    | false =>
      refine .acting hj ?_ hon hrun
      simp only [List.mem_append, List.mem_cons, Prod.mk.injEq] at hmem ⊢
      rcases hmem with hmem | ⟨rfl, -⟩ | hmem
      · exact .inl hmem
      · rw [hi] at hj
        cases hj
      · exact .inr hmem
  | ended hj hmem hrun => exact .ended hj (List.mem_append_left _ hmem) hrun

variable {g : List ι} {outs : List R} {w' : W}

/-- The running members that are not on the part are off it. -/
abbrev OthersOff (π : W → V) (loud : ι → Bool) (s : Pool ι W R) : Prop :=
  ∀ x ∈ s.live, loud x.1 = false → x.2.Off π

theorem OthersOff.step (hoff : ∀ j ∈ g, loud j = false → ∀ w, (spawn j w).1.Off π)
    {s s' : Pool ι W R} (hmembers : s.members.Perm g) (h : OthersOff π loud s)
    (hstep : Step spawn s s') : OthersOff π loud s' := by
  cases hstep with
  | @launch w i q l d =>
    intro x hx hquiet
    rcases List.mem_append.1 hx with hx | hx
    · exact h x hx hquiet
    · rw [List.mem_singleton] at hx
      subst hx
      exact hoff i (hmembers.subset (by simp [Pool.members])) hquiet w
  | @act w q l₁ i f k l₂ d =>
    intro x hx hquiet
    simp only [List.mem_append, List.mem_cons] at hx
    rcases hx with hx | rfl | hx
    · exact h x (List.mem_append_left _ hx) hquiet
    · have hi := h (i, .act f k) (by simp) hquiet
      cases hi with
      | act _ hk => exact hk w
    · exact h x (by simp [hx]) hquiet
  | @finish w q l₁ i r l₂ d =>
    intro x hx hquiet
    refine h x ?_ hquiet
    simp only [List.mem_append, List.mem_cons] at hx ⊢
    tauto

variable (loud) in
theorem filter_eq_map_fst (hlen : outs.length = g.length) :
    g.filter loud = ((g.zip outs).filter fun x => loud x.1).map Prod.fst := by
  conv_lhs => rw [← List.map_fst_zip hlen.ge, List.filter_map]
  rfl

/-- In a group with at most one member on the part, however it is interleaved, the part sees this
member alone. -/
theorem GroupRun.solo (hlaunch : ∀ j w, π (spawn j w).2 = π w)
    (hon : ∀ j ∈ g, loud j = true → ∀ w, (spawn j w).1.On π (p j))
    (hoff : ∀ j ∈ g, loud j = false → ∀ w, (spawn j w).1.Off π) (hcount : g.countP loud ≤ 1)
    (h : GroupRun spawn g w outs w') :
    runOrder p (g.filter loud) (π w) = ((g.zip outs).filter fun x => loud x.1, π w') := by
  obtain ⟨hlen, d, hsteps, hperm⟩ := h
  have hinv := hsteps.invariant
    (I := fun s => s.members.Perm g ∧ OthersOff π loud s ∧ Solo π loud p (π w) s)
    (fun {s s'} hs hstep => by
      obtain ⟨hmembers, hothers, hsolo⟩ := hs
      refine ⟨(members_step hstep).trans hmembers, hothers.step hoff hmembers hstep, ?_⟩
      have hone : s.members.countP loud ≤ 1 := by rwa [hmembers.countP_eq]
      cases hstep with
      | @launch w i q l d =>
        refine hsolo.launch hlaunch (fun w hi => ?_) hone
        exact hon i (hmembers.subset (by simp [Pool.members])) hi w
      | @act w q l₁ i f k l₂ d =>
        refine hsolo.act (fun hi => ?_) hone
        have hmid := hothers (i, .act f k) (by simp) hi
        cases hmid with
        | act hf _ => exact hf
      | finish => exact hsolo.finish hone)
    ⟨by simp [Pool.start, Pool.members], by simp [OthersOff, Pool.start],
      .waiting (by simp [Pool.start]) (by simp [Pool.start]) rfl⟩
  have hfst := filter_eq_map_fst loud hlen
  have hsub : ∀ x, x ∈ (g.zip outs).filter (fun x => loud x.1) ↔ x ∈ d ∧ loud x.1 = true :=
    fun x => by rw [List.mem_filter, hperm.mem_iff]
  have hone : ((g.zip outs).filter fun x => loud x.1).length ≤ 1 := by
    rw [List.countP_eq_length_filter, hfst, List.length_map] at hcount
    exact hcount
  rw [hfst]
  generalize (g.zip outs).filter (fun x => loud x.1) = e at hsub hone ⊢
  cases hinv.2.2 with
  | waiting _ hdone hworld =>
    have hnil : e = [] := by
      refine List.eq_nil_iff_forall_not_mem.2 fun x hx => ?_
      obtain ⟨hd, hx⟩ := (hsub x).1 hx
      rw [hdone x hd] at hx
      cases hx
    rw [hnil, ← hworld]
    rfl
  | acting _ hmem => simp at hmem
  | @ended i r hi hmem hrun =>
    have hmem : (i, r) ∈ e := (hsub _).2 ⟨hmem, hi⟩
    obtain ⟨x, rfl⟩ : ∃ x, e = [x] :=
      List.length_eq_one_iff.1 (le_antisymm hone (List.length_pos_of_mem hmem))
    rw [← List.mem_singleton.1 hmem]
    simp only [List.map_cons, List.map_nil, runOrder, ← hrun]

end Group

/-! ## Groups -/

section Groups

variable {loud : ι → Bool} {p : ι → Proc V R} {spawn : ι → W → Proc W R × W}

/-- The members on the part act on it one after the other if no group has two of them. -/
theorem Scheduler.runGroups_solo (s : Scheduler ι W R) (hlaunch : ∀ j w, π (spawn j w).2 = π w) :
    ∀ (groups : List (List ι)) (w : W),
      (∀ j ∈ groups.flatten, loud j = true → ∀ w, (spawn j w).1.On π (p j)) →
      (∀ j ∈ groups.flatten, loud j = false → ∀ w, (spawn j w).1.Off π) →
      (∀ g ∈ groups, g.countP loud ≤ 1) →
      runOrder p (groups.flatten.filter loud) (π w)
        = ((groups.flatten.zip (s.runGroups spawn groups w).1).filter fun x => loud x.1,
          π (s.runGroups spawn groups w).2)
  | [], _, _, _, _ => rfl
  | g :: groups, w, hon, hoff, hcount => by
    simp only [List.flatten_cons, List.mem_append] at hon hoff
    have hrun := s.sound spawn g w
    have hg := hrun.solo hlaunch (fun j hj => hon j (.inl hj)) (fun j hj => hoff j (.inl hj))
      (hcount g List.mem_cons_self)
    have hrest := s.runGroups_solo hlaunch groups (s.runGroup spawn g w).2
      (fun j hj => hon j (.inr hj)) (fun j hj => hoff j (.inr hj))
      fun g' hg' => hcount g' (List.mem_cons_of_mem _ hg')
    rw [List.flatten_cons, List.filter_append, runOrder_append, hg]
    simp only [runGroups]
    rw [hrest, List.zip_append hrun.1.symm, List.filter_append]

end Groups

end Interleave
