import Mathlib.Data.List.Forall2
import Mathlib.Data.List.Perm.Basic
import Mathlib.Data.List.Sublists
import Mathlib.Data.Set.Basic
import Mathlib.Logic.Relation

/-!
# Processes over a shared world

A process returns or does one atomic action on the world and goes on. A pool launches the members
of a group one after the other while those already launched run in any interleaving; a `Scheduler`
is any way of running groups that some interleaving explains (`GroupRun`).

A process stays within a footprint if it writes no location outside it and what it does depends on
no other. Members of a group with disjoint footprints return and leave behind what they do one
after the other (`GroupRun.eq_runOrder`), and two orders that agree on the dependent pairs give the
same results (`runOrder_congr`): a grouping that keeps dependent members in order is serializable.
-/

namespace Interleave

/-- A process over the world `W` that returns an `R`. -/
inductive Proc (W R : Type)
  | ret (r : R)
  | act (f : W → W) (k : W → Proc W R)

namespace Proc

variable {W R T : Type}

/-- The process run alone, to its end. -/
def run : Proc W R → W → R × W
  | ret r, w => (r, w)
  | act f k, w => (k w).run (f w)

def bind : Proc W R → (R → Proc W T) → Proc W T
  | ret r, g => g r
  | act f k, g => act f fun w => (k w).bind g

instance : Monad (Proc W) where
  pure := ret
  bind := bind

/-- One action that reads the world. -/
def read (f : W → R) : Proc W R := act id fun w => ret (f w)

/-- One action that changes the world and returns what it read before. -/
def step (f : W → R × W) : Proc W R := act (fun w => (f w).2) fun w => ret (f w).1

@[simp] theorem run_ret (r : R) (w : W) : (ret r : Proc W R).run w = (r, w) := rfl

@[simp] theorem run_act (f : W → W) (k : W → Proc W R) (w : W) :
    (act f k).run w = (k w).run (f w) := rfl

@[simp] theorem run_pure (r : R) (w : W) : (pure r : Proc W R).run w = (r, w) := rfl

@[simp] theorem run_bind (p : Proc W R) (g : R → Proc W T) (w : W) :
    (p >>= g).run w = (g (p.run w).1).run (p.run w).2 := by
  show (p.bind g).run w = _
  induction p generalizing w with
  | ret r => rfl
  | act f k ih => exact ih w (f w)

@[simp] theorem run_read (f : W → R) (w : W) : (read f).run w = (f w, w) := rfl

@[simp] theorem run_step (f : W → R × W) (w : W) : (step f).run w = f w := rfl

/-- Whatever the world does, the process returns a value that satisfies `Q`. -/
inductive Returns (Q : R → Prop) : Proc W R → Prop
  | ret {r : R} : Q r → Returns Q (ret r)
  | act {f : W → W} {k : W → Proc W R} : (∀ w, Returns Q (k w)) → Returns Q (act f k)

theorem Returns.bind {P : R → Prop} {Q : T → Prop} {p : Proc W R} {g : R → Proc W T}
    (hp : Returns P p) (hg : ∀ r, P r → Returns Q (g r)) : Returns Q (p >>= g) := by
  show Returns Q (p.bind g)
  induction hp with
  | ret h => exact hg _ h
  | act _ ih => exact .act ih

theorem returns_ret_iff {Q : R → Prop} {r : R} : Returns Q (ret r : Proc W R) ↔ Q r := by
  constructor
  · intro h
    cases h with
    | ret h => exact h
  · exact .ret

theorem returns_act_iff {Q : R → Prop} {f : W → W} {k : W → Proc W R} :
    Returns Q (act f k) ↔ ∀ w, Returns Q (k w) := by
  constructor
  · intro h
    cases h with
    | act h => exact h
  · exact .act

/-- What the whole returns, the second part returns for whatever the first does. -/
theorem returns_bind_iff {Q : T → Prop} {p : Proc W R} {g : R → Proc W T} :
    Returns Q (p >>= g) ↔ Returns (fun r => Returns Q (g r)) p := by
  show Returns Q (p.bind g) ↔ _
  induction p with
  | ret r => rw [bind, returns_ret_iff]
  | act f k ih =>
    rw [bind, returns_act_iff, returns_act_iff]
    exact forall_congr' ih

theorem Returns.mono {P Q : R → Prop} {p : Proc W R} (h : Returns P p) (hPQ : ∀ r, P r → Q r) :
    Returns Q p := by
  induction h with
  | ret h => exact .ret (hPQ _ h)
  | act _ ih => exact .act ih

theorem returns_true : ∀ p : Proc W R, Returns (fun _ => True) p
  | ret _ => .ret trivial
  | act _ k => .act fun w => returns_true (k w)

/-- Every action of the process leads from a world to one that stands in the relation to it. -/
inductive Keeps (r : W → W → Prop) : Proc W R → Prop
  | ret {v : R} : Keeps r (ret v)
  | act {f : W → W} {k : W → Proc W R} : (∀ w, r w (f w)) → (∀ w, Keeps r (k w)) →
    Keeps r (act f k)

theorem Keeps.mono {r r' : W → W → Prop} (hr : ∀ w w', r w w' → r' w w') {p : Proc W R}
    (h : Keeps r p) : Keeps r' p := by
  induction h with
  | ret => exact .ret
  | act h _ ih => exact .act (fun w => hr _ _ (h w)) ih

theorem Keeps.bind {r : W → W → Prop} {p : Proc W R} {g : R → Proc W T} (hp : Keeps r p)
    (hg : ∀ v, Keeps r (g v)) : Keeps r (p >>= g) := by
  show Keeps r (p.bind g)
  induction hp with
  | ret => exact hg _
  | act h _ ih => exact .act h ih

theorem Keeps.read {r : W → W → Prop} (hrefl : ∀ w, r w w) (f : W → R) : Keeps r (read f) :=
  .act hrefl fun _ => .ret

theorem Keeps.step {r : W → W → Prop} {f : W → R × W} (h : ∀ w, r w (f w).2) :
    Keeps r (step f) := .act h fun _ => .ret

theorem Returns.run {Q : R → Prop} {p : Proc W R} (h : Returns Q p) : ∀ w, Q (p.run w).1 := by
  induction h with
  | ret hr => exact fun _ => hr
  | act _ ih => exact fun w => ih w _

end Proc

/-! ## Pools -/

/-- A group being run: the members not launched yet, those running and those that returned. -/
structure Pool (ι W R : Type) where
  world : W
  queue : List ι
  live : List (ι × Proc W R)
  done : List (ι × R)

variable {ι W R : Type}

/-- `spawn i w` is the process of member `i` and the world its launch leaves. -/
inductive Step (spawn : ι → W → Proc W R × W) : Pool ι W R → Pool ι W R → Prop
  | launch {w i q l d} :
    Step spawn ⟨w, i :: q, l, d⟩ ⟨(spawn i w).2, q, l ++ [(i, (spawn i w).1)], d⟩
  | act {w q l i f k m d} :
    Step spawn ⟨w, q, l ++ (i, .act f k) :: m, d⟩ ⟨f w, q, l ++ (i, k w) :: m, d⟩
  | finish {w q l i r m d} :
    Step spawn ⟨w, q, l ++ (i, .ret r) :: m, d⟩ ⟨w, q, l ++ m, d ++ [(i, r)]⟩

/-- Any interleaving of the launches, the actions and the returns. -/
abbrev Steps (spawn : ι → W → Proc W R × W) : Pool ι W R → Pool ι W R → Prop :=
  Relation.ReflTransGen (Step spawn)

/-- The pool before the first launch. -/
def Pool.start (w : W) (g : List ι) : Pool ι W R := ⟨w, g, [], []⟩

/-- Some interleaving takes the group from `w` to `w'`, its members returning `outs` in order. -/
def GroupRun (spawn : ι → W → Proc W R × W) (g : List ι) (w : W) (outs : List R) (w' : W) : Prop :=
  outs.length = g.length
    ∧ ∃ d, Steps spawn (Pool.start w g) ⟨w', [], [], d⟩ ∧ d.Perm (g.zip outs)

/-- A way of running groups. -/
structure Scheduler (ι W R : Type) where
  runGroup : (ι → W → Proc W R × W) → List ι → W → List R × W
  sound : ∀ spawn g w, GroupRun spawn g w (runGroup spawn g w).1 (runGroup spawn g w).2

/-- What holds at the start of a pool and is kept by its steps holds of whatever it reaches. -/
theorem Steps.invariant {spawn : ι → W → Proc W R × W} {I : Pool ι W R → Prop}
    (hstep : ∀ {p q}, I p → Step spawn p q → I q) {p q : Pool ι W R} (h : Steps spawn p q)
    (hp : I p) : I q := by
  induction h with
  | refl => exact hp
  | tail _ hs ih => exact hstep ih hs

/-- The members of a pool, whatever has become of them. -/
def Pool.members (p : Pool ι W R) : List ι := p.queue ++ p.live.map Prod.fst ++ p.done.map Prod.fst

/-- No step loses a member or makes up one. -/
theorem members_step {spawn : ι → W → Proc W R × W} {p q : Pool ι W R} (h : Step spawn p q) :
    q.members.Perm p.members := by
  cases h with
  | launch =>
    simp only [Pool.members, List.map_append, List.map_cons, List.map_nil, List.cons_append,
      List.append_assoc, List.nil_append]
    exact (List.Perm.append_left _ List.perm_middle).trans List.perm_middle
  | act => simp [Pool.members]
  | finish =>
    simp only [Pool.members, List.map_append, List.map_cons, List.map_nil, List.append_assoc,
      List.cons_append]
    refine List.Perm.append_left _ (List.Perm.append_left _ ?_)
    rw [← List.append_assoc]
    exact List.perm_append_comm

theorem members_steps {spawn : ι → W → Proc W R × W} {g : List ι} {w : W} {q : Pool ι W R}
    (h : Steps spawn (Pool.start w g) q) : q.members.Perm g :=
  h.invariant (I := fun p => p.members.Perm g) (fun hp hs => (members_step hs).trans hp)
    (by simp [Pool.start, Pool.members])

/-- If each member returns only values that satisfy its `Q`, so do the results of the group. -/
theorem GroupRun.returns {spawn : ι → W → Proc W R × W} {Q : ι → R → Prop} {g : List ι}
    {w w' : W} {outs : List R} (hspawn : ∀ i ∈ g, ∀ w, (spawn i w).1.Returns (Q i))
    (h : GroupRun spawn g w outs w') : List.Forall₂ Q g outs := by
  obtain ⟨hlen, d, hsteps, hperm⟩ := h
  have hinv := hsteps.invariant
    (I := fun p => p.queue ⊆ g ∧ (∀ x ∈ p.live, x.2.Returns (Q x.1)) ∧ ∀ x ∈ p.done, Q x.1 x.2)
    (fun {p q} hp hs => by
      obtain ⟨hq, hl, hd⟩ := hp
      cases hs with
      | @launch w i q l d =>
        refine ⟨fun j hj => hq (List.mem_cons_of_mem _ hj), fun x hx => ?_, hd⟩
        rcases List.mem_append.1 hx with hx | hx
        · exact hl x hx
        · rw [List.mem_singleton] at hx
          exact hx ▸ hspawn i (hq List.mem_cons_self) w
      | @act w q l₁ i f k l₂ d =>
        refine ⟨hq, fun x hx => ?_, hd⟩
        have hi := hl (i, .act f k) (by simp)
        cases hi with
        | act hk =>
        simp only [List.mem_append, List.mem_cons] at hx
        rcases hx with hx | rfl | hx
        · exact hl x (List.mem_append_left _ hx)
        · exact hk w
        · exact hl x (by simp [hx])
      | @finish w q l₁ i r l₂ d =>
        refine ⟨hq, fun x hx => hl x ?_, fun x hx => ?_⟩
        · simp only [List.mem_append, List.mem_cons] at hx ⊢
          tauto
        · rcases List.mem_append.1 hx with hx | hx
          · exact hd x hx
          · rw [List.mem_singleton] at hx
            have hi := hl (i, .ret r) (by simp)
            cases hi with
            | ret hr => exact hx ▸ hr)
    ⟨List.Subset.refl g, by simp [Pool.start], by simp [Pool.start]⟩
  rw [List.forall₂_iff_zip]
  exact ⟨hlen.symm, fun {i r} hir => hinv.2.2 (i, r) (hperm.symm.subset hir)⟩

theorem Scheduler.runGroup_nil (s : Scheduler ι W R) (spawn : ι → W → Proc W R × W) (w : W) :
    s.runGroup spawn [] w = ([], w) := by
  obtain ⟨hlen, d, hsteps, -⟩ := s.sound spawn [] w
  rcases Relation.ReflTransGen.cases_head hsteps with hend | ⟨p, hstep, -⟩
  · exact Prod.ext (List.length_eq_zero_iff.1 hlen) (congrArg Pool.world hend).symm
  · generalize hstart : Pool.start w [] = q at hstep
    cases hstep <;> simp [Pool.start] at hstart

/-- Runs the groups one after the other; the results come group by group. -/
def Scheduler.runGroups (s : Scheduler ι W R) (spawn : ι → W → Proc W R × W) :
    List (List ι) → W → List R × W
  | [], w => ([], w)
  | g :: groups, w =>
    let run := s.runGroup spawn g w
    let rest := s.runGroups spawn groups run.2
    (run.1 ++ rest.1, rest.2)

theorem Scheduler.runGroups_length (s : Scheduler ι W R) (spawn : ι → W → Proc W R × W) :
    ∀ (groups : List (List ι)) (w : W),
      (s.runGroups spawn groups w).1.length = groups.flatten.length
  | [], _ => rfl
  | g :: groups, w => by
    simp only [runGroups, List.length_append, List.flatten_cons]
    rw [(s.sound spawn g w).1, s.runGroups_length spawn groups]

theorem Scheduler.runGroups_returns (s : Scheduler ι W R) {spawn : ι → W → Proc W R × W}
    {Q : ι → R → Prop} :
    ∀ (groups : List (List ι)) (w : W),
      (∀ i ∈ groups.flatten, ∀ w, (spawn i w).1.Returns (Q i)) →
      List.Forall₂ Q groups.flatten (s.runGroups spawn groups w).1
  | [], _, _ => .nil
  | g :: groups, w, h => by
    simp only [List.flatten_cons, runGroups]
    refine List.rel_append
      ((s.sound spawn g w).returns fun i hi => h i (by simp [hi])) ?_
    exact s.runGroups_returns groups _ fun i hi => h i (by
      rw [List.flatten_cons]
      exact List.mem_append_right _ hi)

section InOrder

/-- Each member is launched and run to its end before the next. -/
def inOrderGroup (spawn : ι → W → Proc W R × W) : List ι → W → List R × W
  | [], w => ([], w)
  | i :: g, w =>
    let r := (spawn i w).1.run (spawn i w).2
    let rest := inOrderGroup spawn g r.2
    (r.1 :: rest.1, rest.2)

theorem steps_run (spawn : ι → W → Proc W R × W) (q : List ι) (i : ι) (d : List (ι × R)) :
    ∀ (p : Proc W R) (w : W),
      Steps spawn ⟨w, q, [(i, p)], d⟩ ⟨(p.run w).2, q, [], d ++ [(i, (p.run w).1)]⟩
  | .ret _, _ => .single (.finish (l := []) (m := []))
  | .act f k, w => .head (.act (l := []) (m := [])) (steps_run spawn q i d (k w) (f w))

theorem steps_inOrder (spawn : ι → W → Proc W R × W) :
    ∀ (g : List ι) (w : W) (d : List (ι × R)),
      Steps spawn ⟨w, g, [], d⟩
        ⟨(inOrderGroup spawn g w).2, [], [], d ++ g.zip (inOrderGroup spawn g w).1⟩
  | [], w, d => by simp [inOrderGroup, Relation.ReflTransGen.refl]
  | i :: g, w, d => by
    have hrun := steps_run spawn g i d (spawn i w).1 (spawn i w).2
    have hrest := steps_inOrder spawn g ((spawn i w).1.run (spawn i w).2).2
      (d ++ [(i, ((spawn i w).1.run (spawn i w).2).1)])
    rw [List.append_assoc] at hrest
    exact .head .launch (hrun.trans hrest)

theorem inOrderGroup_length (spawn : ι → W → Proc W R × W) :
    ∀ (g : List ι) (w : W), (inOrderGroup spawn g w).1.length = g.length
  | [], _ => rfl
  | _ :: g, w => by
    simp only [inOrderGroup, List.length_cons]
    rw [inOrderGroup_length spawn g]

theorem groupRun_inOrder (spawn : ι → W → Proc W R × W) (g : List ι) (w : W) :
    GroupRun spawn g w (inOrderGroup spawn g w).1 (inOrderGroup spawn g w).2 :=
  ⟨inOrderGroup_length spawn g w, _, steps_inOrder spawn g w [], List.Perm.refl _⟩

/-- The scheduler that never interleaves. -/
def Scheduler.inOrder : Scheduler ι W R where
  runGroup := inOrderGroup
  sound := groupRun_inOrder

open scoped Classical in
/-- Every interleaving of a group is some scheduler's. -/
theorem GroupRun.exists_scheduler {spawn : ι → W → Proc W R × W} {g : List ι} {w w' : W}
    {outs : List R} (h : GroupRun spawn g w outs w') :
    ∃ s : Scheduler ι W R, s.runGroup spawn g w = (outs, w') := by
  refine ⟨⟨fun sp g' v => if sp = spawn ∧ g' = g ∧ v = w then (outs, w')
    else inOrderGroup sp g' v, fun sp g' v => ?_⟩, by simp⟩
  split_ifs with he
  · obtain ⟨rfl, rfl, rfl⟩ := he
    exact h
  · exact groupRun_inOrder sp g' v

/-- The processes `p i`, one after the other in the given order. -/
def runOrder (p : ι → Proc W R) : List ι → W → List (ι × R) × W
  | [], w => ([], w)
  | i :: o, w =>
    let r := (p i).run w
    let rest := runOrder p o r.2
    ((i, r.1) :: rest.1, rest.2)

theorem runOrder_append (p : ι → Proc W R) :
    ∀ (a b : List ι) (w : W), runOrder p (a ++ b) w
      = ((runOrder p a w).1 ++ (runOrder p b (runOrder p a w).2).1,
        (runOrder p b (runOrder p a w).2).2)
  | [], _, _ => rfl
  | i :: a, b, w => by
    simp only [List.cons_append, runOrder]
    rw [runOrder_append p a b]

theorem runOrder_map_fst (p : ι → Proc W R) :
    ∀ (o : List ι) (w : W), (runOrder p o w).1.map Prod.fst = o
  | [], _ => rfl
  | i :: o, w => by simp [runOrder, runOrder_map_fst p o]

theorem runOrder_eq_zip (p : ι → Proc W R) (o : List ι) (w : W) :
    (runOrder p o w).1 = o.zip ((runOrder p o w).1.map Prod.snd) := by
  have hfst := runOrder_map_fst p o w
  generalize (runOrder p o w).1 = results at hfst ⊢
  have hzip := List.zip_unzip results
  rw [List.unzip_eq_map] at hzip
  rw [← hfst]
  exact hzip.symm

theorem runOrder_map {κ : Type} (p : ι → Proc W R) (f : κ → ι) :
    ∀ (o : List κ) (w : W), runOrder p (o.map f) w
      = ((runOrder (fun i => p (f i)) o w).1.map (fun x => (f x.1, x.2)),
        (runOrder (fun i => p (f i)) o w).2)
  | [], _ => rfl
  | i :: o, w => by
    simp only [List.map_cons, runOrder]
    rw [runOrder_map p f o]

/-- What holds of every result of every process holds of the results of an order. -/
theorem runOrder_results {p : ι → Proc W R} {Q : ι → R → Prop} :
    ∀ (o : List ι) (w : W), (∀ i ∈ o, ∀ w, Q i ((p i).run w).1) →
      ∀ x ∈ (runOrder p o w).1, Q x.1 x.2
  | [], _, _, _, hx => by simp [runOrder] at hx
  | i :: o, w, h, x, hx => by
    rcases List.mem_cons.1 hx with rfl | hx
    · exact h i List.mem_cons_self w
    · exact runOrder_results o _ (fun j hj => h j (List.mem_cons_of_mem _ hj)) x hx

/-- The results of a permutation of `0, …, n - 1`, read off the results in order. -/
theorem getElem?_of_perm_range {o : List ℕ} {outs rs : List R} {n : ℕ}
    (hlen : outs.length = o.length) (h : (o.zip outs).Perm ((List.range n).zip rs)) :
    o.map (fun i => rs[i]?) = outs.map some := by
  refine List.ext_getElem (by simp [hlen]) fun k hk hk' => ?_
  simp only [List.length_map] at hk hk'
  have hx : (o[k], outs[k]) ∈ (List.range n).zip rs :=
    h.subset (List.mem_iff_getElem.2 ⟨k, by simp [hk, hk'], by simp⟩)
  obtain ⟨m, hm, he⟩ := List.mem_iff_getElem.1 hx
  rw [List.getElem_zip, List.getElem_range, Prod.mk.injEq] at he
  simp only [List.getElem_map]
  rw [← he.1, ← he.2]
  exact List.getElem?_eq_getElem _

end InOrder

section Independent

/-- Neither process notices whether the other has run before it. -/
def Indep (p q : Proc W R) : Prop :=
  ∀ w, (q.run (p.run w).2).1 = (q.run w).1 ∧ (p.run (q.run w).2).1 = (p.run w).1
    ∧ (q.run (p.run w).2).2 = (p.run (q.run w).2).2

variable {p : ι → Proc W R}

/-- A process independent of all before it may as well go first. -/
theorem runOrder_front {i : ι} :
    ∀ (a b : List ι) (w : W), (∀ x ∈ a, Indep (p x) (p i)) →
      (runOrder p (a ++ i :: b) w).1.Perm (runOrder p (i :: (a ++ b)) w).1
        ∧ (runOrder p (a ++ i :: b) w).2 = (runOrder p (i :: (a ++ b)) w).2
  | [], _, _, _ => ⟨List.Perm.refl _, rfl⟩
  | x :: a, b, w, h => by
    obtain ⟨h1, h2⟩ := runOrder_front a b ((p x).run w).2
      fun y hy => h y (List.mem_cons_of_mem _ hy)
    obtain ⟨e1, e2, e3⟩ := h x List.mem_cons_self w
    simp only [List.cons_append, runOrder] at h1 h2 ⊢
    refine ⟨(h1.cons _).trans ?_, ?_⟩
    · rw [e1, e2, e3]
      exact List.Perm.swap _ _ _
    · rw [h2, e3]

/-- An order that keeps every dependent pair as `r` has it gives the results and the world of the
order that `r` sorts. -/
theorem runOrder_congr {r : ι → ι → Prop} (hasymm : ∀ i j, r i j → ¬ r j i) :
    ∀ (o' o : List ι) (w : W), o.Perm o' → o'.Pairwise r →
      o.Pairwise (fun i j => ¬ Indep (p i) (p j) → r i j) →
      (runOrder p o w).1.Perm (runOrder p o' w).1 ∧ (runOrder p o w).2 = (runOrder p o' w).2
  | [], o, w, hp, _, _ => by
    rw [List.perm_nil.1 hp]
    exact ⟨List.Perm.refl _, rfl⟩
  | i :: t, o, w, hp, hlt, hord => by
    obtain ⟨a, b, rfl⟩ := List.append_of_mem (hp.symm.subset List.mem_cons_self)
    obtain ⟨hhead, htail⟩ := List.pairwise_cons.1 hlt
    have hab : (a ++ b).Perm t := (List.perm_middle.symm.trans hp).cons_inv
    obtain ⟨-, -, hcross⟩ := List.pairwise_append.1 hord
    -- what stands before `i` in `o` comes after it in `o'`, so none of it depends on `i`
    have hfront : ∀ x ∈ a, Indep (p x) (p i) := by
      intro x hx
      by_contra hdep
      have hxi : r x i := hcross x hx i List.mem_cons_self hdep
      exact hasymm _ _ hxi (hhead x (hab.subset (List.mem_append_left _ hx)))
    have hsub : (a ++ b).Sublist (a ++ i :: b) :=
      (List.Sublist.refl a).append (List.sublist_cons_self i b)
    obtain ⟨f1, f2⟩ := runOrder_front a b w hfront
    obtain ⟨r1, r2⟩ := runOrder_congr hasymm t (a ++ b) ((p i).run w).2 hab htail
      (hord.sublist hsub)
    refine ⟨f1.trans ?_, f2.trans ?_⟩
    · simp only [runOrder]
      exact r1.cons _
    · simp only [runOrder]
      exact r2

end Independent

/-! ## Footprints -/

section Footprint

variable {L V : Type}

/-- The process writes no location outside `S`, and neither what it writes in `S` nor how it goes
on depends on one. -/
inductive Within (S : Set L) : Proc (L → V) R → Prop
  | ret (r : R) : Within S (.ret r)
  | act {f : (L → V) → L → V} {k : (L → V) → Proc (L → V) R}
    (frame : ∀ w l, l ∉ S → f w l = w l)
    (reads : ∀ w w', (∀ l ∈ S, w l = w' l) → (∀ l ∈ S, f w l = f w' l) ∧ k w = k w')
    (rest : ∀ w, Within S (k w)) : Within S (.act f k)

variable {S T : Set L} {p q : Proc (L → V) R}

theorem Within.bind {R' : Type} {g : R → Proc (L → V) R'} (hp : Within S p)
    (hg : ∀ r, Within S (g r)) : Within S (p >>= g) := by
  show Within S (p.bind g)
  induction hp with
  | ret r => exact hg r
  | act frame reads _ ih =>
    refine .act frame (fun w w' h => ?_) ih
    obtain ⟨h1, h2⟩ := reads w w' h
    exact ⟨h1, by rw [h2]⟩

theorem Within.read {f : (L → V) → R} (h : ∀ w w', (∀ l ∈ S, w l = w' l) → f w = f w') :
    Within S (Proc.read f) :=
  .act (fun _ _ _ => rfl) (fun w w' hw => ⟨hw, by rw [h w w' hw]⟩) fun _ => .ret _

theorem Within.step {f : (L → V) → R × (L → V)} (hframe : ∀ w l, l ∉ S → (f w).2 l = w l)
    (hreads : ∀ w w', (∀ l ∈ S, w l = w' l) →
      (f w).1 = (f w').1 ∧ ∀ l ∈ S, (f w).2 l = (f w').2 l) :
    Within S (Proc.step f) :=
  .act hframe (fun w w' hw => ⟨(hreads w w' hw).2, by rw [(hreads w w' hw).1]⟩) fun _ => .ret _

theorem Within.frame (hp : Within S p) : ∀ (w : L → V) {l : L}, l ∉ S → (p.run w).2 l = w l := by
  induction hp with
  | ret r => intros; rfl
  | act frame _ _ ih =>
    intro w l hl
    rw [Proc.run_act, ih w _ hl, frame w l hl]

/-- Worlds that agree on the footprint are told apart neither by the result nor by what the
footprint holds afterwards. -/
theorem Within.run_congr (hp : Within S p) : ∀ {w w' : L → V}, (∀ l ∈ S, w l = w' l) →
    (p.run w).1 = (p.run w').1 ∧ ∀ l ∈ S, (p.run w).2 l = (p.run w').2 l := by
  induction hp with
  | ret r => exact fun h => ⟨rfl, h⟩
  | act _ reads _ ih =>
    intro w w' h
    obtain ⟨h1, h2⟩ := reads w w' h
    simp only [Proc.run_act]
    rw [← h2]
    exact ih w h1

theorem Within.indep (hp : Within S p) (hq : Within T q) (hd : ∀ l ∈ S, l ∉ T) : Indep p q := by
  intro w
  have hpw : ∀ l ∈ T, (p.run w).2 l = w l := fun l hl => hp.frame w fun h => hd l h hl
  have hqw : ∀ l ∈ S, (q.run w).2 l = w l := fun l hl => hq.frame w (hd l hl)
  refine ⟨(hq.run_congr hpw).1, (hp.run_congr hqw).1, funext fun l => ?_⟩
  by_cases hS : l ∈ S
  · rw [hq.frame _ (hd l hS), (hp.run_congr hqw).2 l hS]
  · rw [hp.frame _ hS]
    by_cases hT : l ∈ T
    · exact (hq.run_congr hpw).2 l hT
    · rw [hq.frame _ hT, hq.frame _ hT, hp.frame _ hS]

end Footprint

section Disjoint

variable {L V : Type} {g : List ι} {p : ι → Proc (L → V) R} {S : ι → Set L} {w₀ : L → V}

/-- A pool of processes with disjoint footprints, started at `w₀`: each member has done, within
its footprint, some of what it does alone from `w₀`. -/
structure Apart (g : List ι) (p : ι → Proc (L → V) R) (S : ι → Set L) (w₀ : L → V)
    (s : Pool ι (L → V) R) : Prop where
  members : s.members.Perm g
  queue : ∀ i ∈ s.queue, ∀ l ∈ S i, s.world l = w₀ l
  live : ∀ x ∈ s.live, Within (S x.1) x.2 ∧ (x.2.run s.world).1 = ((p x.1).run w₀).1
    ∧ ∀ l ∈ S x.1, (x.2.run s.world).2 l = ((p x.1).run w₀).2 l
  done : ∀ x ∈ s.done, x.2 = ((p x.1).run w₀).1
    ∧ ∀ l ∈ S x.1, s.world l = ((p x.1).run w₀).2 l
  outside : ∀ l, (∀ i ∈ g, l ∉ S i) → s.world l = w₀ l

theorem Apart.start : Apart g p S w₀ (Pool.start w₀ g) where
  members := by simp [Pool.start, Pool.members]
  queue := fun _ _ _ _ => rfl
  live := fun _ h => by simp [Pool.start] at h
  done := fun _ h => by simp [Pool.start] at h
  outside := fun _ _ => rfl

/-- The members of a pool beside one of its live ones. -/
theorem others_ne {w : L → V} {q : List ι} {l₁ l₂ : List (ι × Proc (L → V) R)} {i : ι}
    {c : Proc (L → V) R} {d : List (ι × R)} (hnd : g.Nodup)
    (hmem : (Pool.mk w q (l₁ ++ (i, c) :: l₂) d).members.Perm g) {j : ι}
    (hj : j ∈ q ∨ j ∈ (l₁ ++ l₂).map Prod.fst ∨ j ∈ d.map Prod.fst) : j ∈ g ∧ j ≠ i := by
  have hnd' := hmem.nodup_iff.2 hnd
  have hsub := hmem.subset (a := j)
  simp only [Pool.members, List.map_append, List.map_cons, List.mem_append, List.mem_cons]
    at hnd' hsub hj
  refine ⟨hsub (by tauto), fun he => ?_⟩
  subst he
  simp only [List.nodup_append, List.nodup_cons, List.mem_append, List.mem_cons] at hnd'
  rcases hj with hj | (hj | hj) | hj
  · exact hnd'.1.2.2 j hj j (by simp) rfl
  · exact hnd'.1.2.1.2.2 j hj j (by simp) rfl
  · exact hnd'.1.2.1.2.1.1 hj
  · exact hnd'.2.2 j (by simp) j hj rfl

/-- An action moves the world only within its own member's footprint, which the other members
neither read nor write. -/
theorem Apart.act {w : L → V} {q : List ι} {l₁ l₂ : List (ι × Proc (L → V) R)} {i : ι}
    {f : (L → V) → L → V} {k : (L → V) → Proc (L → V) R} {d : List (ι × R)} (hnd : g.Nodup)
    (hdisj : ∀ i ∈ g, ∀ j ∈ g, i ≠ j → ∀ l ∈ S i, l ∉ S j)
    (hs : Apart g p S w₀ ⟨w, q, l₁ ++ (i, .act f k) :: l₂, d⟩)
    (hmem : (Pool.mk (f w) q (l₁ ++ (i, k w) :: l₂) d).members.Perm g) :
    Apart g p S w₀ ⟨f w, q, l₁ ++ (i, k w) :: l₂, d⟩ := by
  have hi : i ∈ g := hs.members.subset (by simp [Pool.members])
  obtain ⟨hw, hr⟩ := hs.live (i, .act f k) (by simp)
  cases hw with
  | act frame reads rest =>
  have hkeep : ∀ j, j ∈ g ∧ j ≠ i → ∀ l ∈ S j, f w l = w l :=
    fun j hj l hl => frame w l (hdisj j hj.1 i hi hj.2 l hl)
  refine ⟨hmem, fun j hj l hl => ?_, fun x hx => ?_, fun x hx => ?_, fun l hl => ?_⟩
  · have hother := others_ne hnd hs.members (.inl hj)
    exact (hkeep j hother l hl).trans (hs.queue j hj l hl)
  · simp only [List.mem_append, List.mem_cons] at hx
    by_cases hxi : x = (i, k w)
    · subst hxi
      exact ⟨rest w, hr⟩
    · have hx' : x ∈ l₁ ++ l₂ := List.mem_append.2 (by tauto)
      have hother := others_ne hnd hs.members (.inr (.inl (List.mem_map_of_mem hx')))
      obtain ⟨hwx, hrx, hlx⟩ := hs.live x (by simp only [List.mem_append, List.mem_cons]; tauto)
      obtain ⟨c1, c2⟩ := hwx.run_congr (hkeep x.1 hother)
      exact ⟨hwx, c1.trans hrx, fun l hl => (c2 l hl).trans (hlx l hl)⟩
  · have hother := others_ne hnd hs.members (.inr (.inr (List.mem_map_of_mem hx)))
    obtain ⟨h1, h2⟩ := hs.done x hx
    exact ⟨h1, fun l hl => (hkeep x.1 hother l hl).trans (h2 l hl)⟩
  · exact (frame w l (hl i hi)).trans (hs.outside l hl)

theorem Apart.step {spawn : ι → (L → V) → Proc (L → V) R × (L → V)} (hnd : g.Nodup)
    (hspawn : ∀ i ∈ g, ∀ w, spawn i w = (p i, w)) (hwithin : ∀ i ∈ g, Within (S i) (p i))
    (hdisj : ∀ i ∈ g, ∀ j ∈ g, i ≠ j → ∀ l ∈ S i, l ∉ S j) {s s' : Pool ι (L → V) R}
    (hs : Apart g p S w₀ s) (h : Step spawn s s') : Apart g p S w₀ s' := by
  have hmem := (members_step h).trans hs.members
  cases h with
  | @launch w i q l d =>
    have hi : i ∈ g := hs.members.subset (by simp [Pool.members])
    rw [hspawn i hi] at hmem ⊢
    refine ⟨hmem, fun j hj => hs.queue j (List.mem_cons_of_mem _ hj), fun x hx => ?_, hs.done,
      hs.outside⟩
    rcases List.mem_append.1 hx with hx | hx
    · exact hs.live x hx
    · rw [List.mem_singleton] at hx
      subst hx
      have hq := hs.queue i List.mem_cons_self
      exact ⟨hwithin i hi, (hwithin i hi).run_congr hq⟩
  | act => exact hs.act hnd hdisj hmem
  | @finish w q l₁ i r l₂ d =>
    refine ⟨hmem, hs.queue, fun x hx => hs.live x ?_, fun x hx => ?_, hs.outside⟩
    · simp only [List.mem_append, List.mem_cons] at hx ⊢
      tauto
    · rcases List.mem_append.1 hx with hx | hx
      · exact hs.done x hx
      · rw [List.mem_singleton] at hx
        subst hx
        obtain ⟨-, h1, h2⟩ := hs.live (i, .ret r) (by simp)
        exact ⟨h1, h2⟩

/-- One after the other, each of the processes does what it does alone from the start. -/
theorem runOrder_apart (w : L → V) (hwithin : ∀ i ∈ g, Within (S i) (p i))
    (hdisj : g.Pairwise fun i j => ∀ l ∈ S i, l ∉ S j) :
    (runOrder p g w).1 = g.map (fun i => (i, ((p i).run w).1))
      ∧ (∀ i ∈ g, ∀ l ∈ S i, (runOrder p g w).2 l = ((p i).run w).2 l)
      ∧ ∀ l, (∀ i ∈ g, l ∉ S i) → (runOrder p g w).2 l = w l := by
  induction g generalizing w with
  | nil => simp [runOrder]
  | cons i g ih =>
    obtain ⟨hhead, htail⟩ := List.pairwise_cons.1 hdisj
    have hwi := hwithin i List.mem_cons_self
    obtain ⟨h1, h2, h3⟩ := ih ((p i).run w).2
      (fun j hj => hwithin j (List.mem_cons_of_mem _ hj)) htail
    have hagree : ∀ j ∈ g, ∀ l ∈ S j, ((p i).run w).2 l = w l :=
      fun j hj l hl => hwi.frame w fun h => hhead j hj l h hl
    simp only [runOrder, List.map_cons]
    refine ⟨?_, fun j hj l hl => ?_, fun l hl => ?_⟩
    · rw [h1]
      congr 1
      refine List.map_congr_left fun j hj => ?_
      rw [((hwithin j (List.mem_cons_of_mem _ hj)).run_congr (hagree j hj)).1]
    · rcases List.mem_cons.1 hj with rfl | hj
      · exact h3 l fun k hk => hhead k hk l hl
      · rw [h2 j hj l hl]
        exact ((hwithin j (List.mem_cons_of_mem _ hj)).run_congr (hagree j hj)).2 l hl
    · rw [h3 l fun k hk => hl k (List.mem_cons_of_mem _ hk)]
      exact hwi.frame w (hl i List.mem_cons_self)

/-- However a group with disjoint footprints is interleaved, it is as if its members ran one after
the other. -/
theorem GroupRun.eq_runOrder {spawn : ι → (L → V) → Proc (L → V) R × (L → V)} (hnd : g.Nodup)
    (hspawn : ∀ i ∈ g, ∀ w, spawn i w = (p i, w)) (hwithin : ∀ i ∈ g, Within (S i) (p i))
    (hdisj : ∀ i ∈ g, ∀ j ∈ g, i ≠ j → ∀ l ∈ S i, l ∉ S j) {outs : List R} {w' : L → V}
    (h : GroupRun spawn g w₀ outs w') : runOrder p g w₀ = (g.zip outs, w') := by
  obtain ⟨hlen, d, hsteps, hperm⟩ := h
  have hs := hsteps.invariant (I := Apart g p S w₀)
    (fun hs h => hs.step hnd hspawn hwithin hdisj h) Apart.start
  have hpw : g.Pairwise fun i j => ∀ l ∈ S i, l ∉ S j :=
    (List.Pairwise.and_mem.1 hnd).imp fun {i j} h => hdisj i h.1 j h.2.1 h.2.2
  obtain ⟨h1, h2, h3⟩ := runOrder_apart w₀ hwithin hpw
  refine Prod.ext ?_ (funext fun l => ?_)
  · rw [h1]
    refine List.ext_getElem (by simp [hlen]) fun n hn hn' => ?_
    have hx : (g.zip outs)[n] ∈ d := hperm.symm.subset (List.getElem_mem hn')
    have := (hs.done _ hx).1
    simp only [List.getElem_map, List.getElem_zip] at this ⊢
    rw [this]
  · by_cases hl : ∀ i ∈ g, l ∉ S i
    · rw [h3 l hl]
      exact (hs.outside l hl).symm
    · push Not at hl
      obtain ⟨i, hi, hli⟩ := hl
      obtain ⟨x, hx, rfl⟩ : ∃ x ∈ d, x.1 = i := by
        have := hs.members.symm.subset hi
        simpa [Pool.members] using this
      rw [h2 x.1 hi l hli]
      exact ((hs.done x hx).2 l hli).symm

/-- All schedulers do the same with such a group. -/
theorem Scheduler.runGroup_congr (s s' : Scheduler ι (L → V) R)
    {spawn : ι → (L → V) → Proc (L → V) R × (L → V)} (hnd : g.Nodup)
    (hspawn : ∀ i ∈ g, ∀ w, spawn i w = (p i, w)) (hwithin : ∀ i ∈ g, Within (S i) (p i))
    (hdisj : ∀ i ∈ g, ∀ j ∈ g, i ≠ j → ∀ l ∈ S i, l ∉ S j) (w : L → V) :
    s.runGroup spawn g w = s'.runGroup spawn g w := by
  have hrun := s.sound spawn g w
  have hrun' := s'.sound spawn g w
  have hzip := (hrun.eq_runOrder hnd hspawn hwithin hdisj).symm.trans
    (hrun'.eq_runOrder hnd hspawn hwithin hdisj)
  obtain ⟨hpairs, hworld⟩ := Prod.mk.inj hzip
  have houts := congrArg (List.map Prod.snd) hpairs
  rw [List.map_snd_zip hrun.1.le, List.map_snd_zip hrun'.1.le] at houts
  exact Prod.ext houts hworld

/-- Groups whose members have disjoint footprints are run as if all were run one by one. -/
theorem Scheduler.runGroups_eq_runOrder (s : Scheduler ι (L → V) R)
    {spawn : ι → (L → V) → Proc (L → V) R × (L → V)} :
    ∀ (groups : List (List ι)) (w : L → V), groups.flatten.Nodup →
      (∀ i ∈ groups.flatten, ∀ w, spawn i w = (p i, w)) →
      (∀ i ∈ groups.flatten, Within (S i) (p i)) →
      (∀ g ∈ groups, ∀ i ∈ g, ∀ j ∈ g, i ≠ j → ∀ l ∈ S i, l ∉ S j) →
      runOrder p groups.flatten w
        = (groups.flatten.zip (s.runGroups spawn groups w).1, (s.runGroups spawn groups w).2)
  | [], _, _, _, _, _ => rfl
  | g :: groups, w, hnd, hspawn, hwithin, hdisj => by
    simp only [List.flatten_cons, List.mem_append] at hnd hspawn hwithin
    have hrun := s.sound spawn g w
    have hg := hrun.eq_runOrder hnd.of_append_left (fun i hi => hspawn i (.inl hi))
      (fun i hi => hwithin i (.inl hi)) (hdisj g List.mem_cons_self)
    have hrest := s.runGroups_eq_runOrder groups (s.runGroup spawn g w).2 hnd.of_append_right
      (fun i hi => hspawn i (.inr hi)) (fun i hi => hwithin i (.inr hi))
      fun g' hg' => hdisj g' (List.mem_cons_of_mem _ hg')
    rw [List.flatten_cons, runOrder_append, hg]
    simp only [runGroups]
    rw [hrest, List.zip_append hrun.1.symm]

end Disjoint

end Interleave
