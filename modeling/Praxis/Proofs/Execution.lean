import Praxis.ToolExecutor
import Praxis.Proofs.Schedule

/-!
# What a batch returns

`execute` is the groups run one after the other, as long as no worker throws. If the tools return
normally it returns one record for each call, group by group.
-/

namespace Praxis

open Interleave (Proc Scheduler)

variable {W U : Type}

/-- The record carries the call's ordinal, name and arguments. -/
def ToolExecutionRecord.IsOf (r : ToolExecutionRecord) (call : ToolCall) : Prop :=
  r.ordinal = call.ordinal ∧ r.tool_name = call.name ∧ r.arguments = call.arguments

/-- The tool of a call, if there is one, does not throw. -/
def ToolRegistry.ReturnsOn (registry : ToolRegistry W U) (call : ToolCall) : Prop :=
  ∀ tool, registry.find call.name = some tool →
    ∀ ctx, (tool.invoke call ctx).run.Returns fun r => ∃ result, r = .ok result

theorem invokePath_eq_invoke {registry : ToolRegistry W U} {call : ToolCall}
    {ctx : Option (Ctx U)} {tool : Tool W U} {c : Ctx U} :
    invokePath registry call ctx = .invoke tool c
      ↔ registry.find call.name = some tool ∧ ctx = some c := by
  unfold invokePath
  cases registry.find call.name with
  | none => simp
  | some tool => cases ctx <;> simp

/-- A worker returns a record of its call, whichever way it goes. -/
theorem invoke_one_returns {registry : ToolRegistry W U} {call : ToolCall}
    (hreg : registry.ReturnsOn call) (ctx : Option (Ctx U)) :
    (invoke_one registry call ctx).run.Returns fun r => ∃ record, r = .ok record ∧ record.IsOf call
    := by
  unfold invoke_one invokePath
  cases hfind : registry.find call.name with
  | none => exact .ret ⟨_, rfl, rfl, rfl, rfl⟩
  | some tool =>
    cases ctx with
    | none => exact .ret ⟨_, rfl, rfl, rfl, rfl⟩
    | some c =>
      refine (hreg tool hfind c).bind fun r hr => ?_
      obtain ⟨result, rfl⟩ := hr
      exact .ret ⟨_, rfl, rfl, rfl, rfl⟩

theorem callGraph_size (registry : ToolRegistry W U) (calls : List ToolCall) :
    (callGraph registry calls).size = calls.length := by
  simp [callGraph]

theorem callGraph_resources_at (registry : ToolRegistry W U) (calls : List ToolCall) {i : ℕ}
    (hi : i < calls.length) :
    (callGraph registry calls).resources_at i = resourcesOf registry (calls.getD i {}) := by
  unfold callGraph
  rw [DependencyGraph.ofCalls_resources_at]
  simp [List.getD, hi]

/-- Two calls of a batch conflict if they are different and claim a common key. -/
theorem callGraph_conflict_iff (registry : ToolRegistry W U) (calls : List ToolCall) {i j : ℕ} :
    (callGraph registry calls).Conflict i j
      ↔ i ≠ j ∧ i < calls.length ∧ j < calls.length
        ∧ ∃ key ∈ resourcesOf registry (calls.getD i {}),
          key ∈ resourcesOf registry (calls.getD j {}) := by
  refine DependencyGraph.has_conflict_iff.trans ?_
  rw [callGraph_size]
  refine and_congr_right fun _ => and_congr_right fun hi => and_congr_right fun hj => ?_
  rw [callGraph_resources_at registry calls hi, callGraph_resources_at registry calls hj]

/-- The fallback of `execute` for an empty group list is never taken. -/
theorem executionGroups_eq {G : DependencyGraph} (hpos : 0 < G.size) (parallel_safe : Bool) :
    executionGroups parallel_safe G G.size
      = if parallel_safe then G.schedule else [List.range G.size] := by
  have hne : G.schedule ≠ [] := by
    intro h
    have hmem := FirstFit.mem_classes_flatten (R := G.Conflict) (n := G.size) (j := 0)
    rw [← DependencyGraph.schedule_eq_classes, h] at hmem
    simp [hpos] at hmem
  unfold executionGroups
  cases parallel_safe with
  | true => simp [hne]
  | false => simp

/-- Every call of a batch is in exactly one group. -/
theorem executionGroups_perm (parallel_safe : Bool) (G : DependencyGraph) :
    (executionGroups parallel_safe G G.size).flatten.Perm (List.range G.size) := by
  rcases Nat.eq_zero_or_pos G.size with h0 | hpos
  · have hnil : G.schedule = [] := by rw [DependencyGraph.schedule_eq_classes, h0]; rfl
    unfold executionGroups
    rw [hnil, h0]
    cases parallel_safe <;> simp
  · rw [executionGroups_eq hpos]
    cases parallel_safe with
    | true =>
      rw [if_pos rfl, DependencyGraph.schedule_eq_classes]
      exact FirstFit.classes_perm _
    | false => simp

namespace ToolExecutor

theorem await_append : ∀ (records : List ToolExecutionRecord)
    (outs : List (Except Exn ToolExecutionRecord)) (ex : ToolExecutor)
    (out : List ToolExecutionRecord),
    await (records.map .ok ++ outs) ex out = await outs (records.foldl count ex) (out ++ records)
  | [], _, _, _ => by simp
  | r :: records, outs, ex, out => by
    rw [List.map_cons, List.cons_append, await, await_append records, List.append_assoc]
    rfl

theorem await_ok (records : List ToolExecutionRecord) (ex : ToolExecutor)
    (out : List ToolExecutionRecord) :
    await (records.map .ok) ex out = (.ok (out ++ records), records.foldl count ex) := by
  have h := await_append records [] ex out
  rwa [List.append_nil] at h

/-- Results none of which is an exception are records. -/
theorem exists_records {Q : ℕ → ToolExecutionRecord → Prop} :
    ∀ {order : List ℕ} {outs : List (Except Exn ToolExecutionRecord)},
      List.Forall₂ (fun i r => ∃ record, r = .ok record ∧ Q i record) order outs →
      ∃ records : List ToolExecutionRecord,
        outs = records.map .ok ∧ List.Forall₂ Q order records
  | _, _, .nil => ⟨[], rfl, .nil⟩
  | _, _, .cons ⟨record, hr, hq⟩ h => by
    obtain ⟨records, rfl, hrest⟩ := exists_records h
    exact ⟨record :: records, by rw [hr, List.map_cons], .cons hq hrest⟩

variable (sched : Scheduler ℕ W (Except Exn ToolExecutionRecord)) (P : Platform W U)
  (registry : ToolRegistry W U) (calls : List ToolCall) (ctx : Option (Ctx U))

/-- The groups that are started, each with the world it finds. Once a worker has thrown, the loop
over the groups is left (`runs_started`). -/
def started : List (List ℕ) → W → List (List ℕ × W)
  | [], _ => []
  | g :: groups, w =>
    let run := sched.runGroup (launch P registry calls ctx) g w
    (g, w) :: if run.1.all Except.isOk then started groups run.2 else []

theorem started_prefix : ∀ (groups : List (List ℕ)) (w : W),
    (started sched P registry calls ctx groups w).map Prod.fst <+: groups
  | [], _ => List.prefix_rfl
  | g :: groups, w => by
    unfold started
    dsimp only
    split_ifs
    · exact (List.cons_prefix_cons).2 ⟨rfl, started_prefix groups _⟩
    · exact ⟨groups, rfl⟩

/-- As long as no worker throws, the records come out group by group. -/
theorem executeGroups_ok :
    ∀ (groups : List (List ℕ)) (ex : ToolExecutor) (w : W)
      (out records : List ToolExecutionRecord),
      (sched.runGroups (launch P registry calls ctx) groups w).1 = records.map .ok →
      executeGroups sched P registry calls ctx groups ex w out
        = (.ok (out ++ records), records.foldl count ex,
          (sched.runGroups (launch P registry calls ctx) groups w).2)
  | [], ex, w, out, records, h => by
    obtain rfl : records = [] := List.map_eq_nil_iff.1 h.symm
    simp [executeGroups, Scheduler.runGroups]
  | g :: groups, ex, w, out, records, h => by
    simp only [Scheduler.runGroups] at h
    obtain ⟨r₁, r₂, rfl, h₁, h₂⟩ := List.map_eq_append_iff.1 h.symm
    simp only [executeGroups, Scheduler.runGroups]
    rw [← h₁, await_ok]
    simp only []
    rw [executeGroups_ok groups _ _ _ r₂ h₂.symm, List.append_assoc, List.foldl_append]

/-- The groups `execute` runs a batch in. -/
def groupsOf (ex : ToolExecutor) : List (List ℕ) :=
  executionGroups ex.parallel_safe (callGraph registry calls) calls.length

theorem groupsOf_perm (ex : ToolExecutor) :
    (groupsOf registry calls ex).flatten.Perm (List.range calls.length) := by
  have h := executionGroups_perm ex.parallel_safe (callGraph registry calls)
  rwa [callGraph_size] at h

theorem execute_ok (ex : ToolExecutor) (w : W) (records : List ToolExecutionRecord)
    (h : (sched.runGroups (launch P registry calls ctx) (groupsOf registry calls ex) w).1
      = records.map .ok)
    (hne : calls ≠ []) :
    execute sched P registry ex calls ctx w
      = (.ok records, records.foldl count ex,
        (sched.runGroups (launch P registry calls ctx) (groupsOf registry calls ex) w).2) := by
  unfold execute
  rw [if_neg (by simpa using hne)]
  exact executeGroups_ok sched P registry calls ctx _ ex w [] records h

theorem foldl_count : ∀ (records : List ToolExecutionRecord) (ex : ToolExecutor),
    records.foldl count ex =
      { ex with
        invocations := ex.invocations + .ofNat records.length
        failures := ex.failures + .ofNat (records.countP fun r => !r.result.ok) }
  | [], ex => by simp
  | r :: records, ex => by
    rw [List.foldl_cons, foldl_count records]
    cases hok : r.result.ok <;>
      simp [count, hok, UInt64.ofNat_add, UInt64.add_assoc, UInt64.add_comm]

/-- If no future throws, each has given a record. -/
theorem await_eq_ok : ∀ {outs : List (Except Exn ToolExecutionRecord)} {ex ex' : ToolExecutor}
    {out out' : List ToolExecutionRecord}, await outs ex out = (.ok out', ex') →
      ∃ records, outs = records.map .ok ∧ out' = out ++ records ∧ ex' = records.foldl count ex
  | [], ex, ex', out, out', h => by
    cases h
    exact ⟨[], rfl, (List.append_nil _).symm, rfl⟩
  | .error e :: outs, ex, ex', out, out', h => by cases h
  | .ok r :: outs, ex, ex', out, out', h => by
    have hrest : await outs (ex.count r) (out ++ [r]) = (.ok out', ex') := h
    obtain ⟨records, rfl, rfl, rfl⟩ := await_eq_ok hrest
    exact ⟨r :: records, rfl, by simp, rfl⟩

/-- A batch goes on only from a group whose records have all come. -/
theorem executeGroups_cons_eq_ok {g : List ℕ} {groups : List (List ℕ)} {ex ex' : ToolExecutor}
    {w w' : W} {out out' : List ToolExecutionRecord}
    (h : executeGroups sched P registry calls ctx (g :: groups) ex w out = (.ok out', ex', w')) :
    ∃ out₁ ex₁, await (sched.runGroup (launch P registry calls ctx) g w).1 ex out = (.ok out₁, ex₁)
      ∧ executeGroups sched P registry calls ctx groups ex₁
        (sched.runGroup (launch P registry calls ctx) g w).2 out₁ = (.ok out', ex', w') := by
  unfold executeGroups at h
  dsimp only at h
  rcases hawait : await (sched.runGroup (launch P registry calls ctx) g w).1 ex out with
    ⟨e | out₁, ex₁⟩
  · rw [hawait] at h
    cases h
  · rw [hawait] at h
    exact ⟨out₁, ex₁, rfl, h⟩

theorem executeGroups_eq_ok :
    ∀ {groups : List (List ℕ)} {ex ex' : ToolExecutor} {w w' : W}
      {out out' : List ToolExecutionRecord},
      executeGroups sched P registry calls ctx groups ex w out = (.ok out', ex', w') →
      ∃ records, records.length = groups.flatten.length ∧ out' = out ++ records
        ∧ ex' = records.foldl count ex
  | [], ex, ex', w, w', out, out', h => by
    cases h
    exact ⟨[], rfl, (List.append_nil _).symm, rfl⟩
  | g :: groups, ex, ex', w, w', out, out', h => by
    obtain ⟨out₁, ex₁, hawait, h⟩ := executeGroups_cons_eq_ok sched P registry calls ctx h
    obtain ⟨r₁, hrun₁, rfl, rfl⟩ := await_eq_ok hawait
    obtain ⟨r₂, hlen₂, rfl, rfl⟩ := executeGroups_eq_ok h
    have hgroup := (sched.sound (launch P registry calls ctx) g w).1
    rw [hrun₁, List.length_map] at hgroup
    refine ⟨r₁ ++ r₂, ?_, List.append_assoc .., (List.foldl_append ..).symm⟩
    rw [List.length_append, hlen₂, hgroup, List.flatten_cons, List.length_append]

/-- A batch that returns has one record for each call, all of them counted. -/
theorem execute_eq_ok {ex ex' : ToolExecutor} {w w' : W} {records : List ToolExecutionRecord}
    (h : execute sched P registry ex calls ctx w = (.ok records, ex', w')) :
    records.length = calls.length ∧ ex' = records.foldl count ex := by
  unfold execute at h
  split_ifs at h with hempty
  · cases h
    exact ⟨by simp [List.isEmpty_iff.1 hempty], rfl⟩
  · obtain ⟨records', hlen, rfl, rfl⟩ := executeGroups_eq_ok sched P registry calls ctx h
    refine ⟨?_, rfl⟩
    have hperm := (groupsOf_perm registry calls ex).length_eq
    rw [List.length_range] at hperm
    exact hlen.trans hperm

theorem isOk_of_await : ∀ (outs : List (Except Exn ToolExecutionRecord)) (ex : ToolExecutor)
    (out : List ToolExecutionRecord), (await outs ex out).1.isOk = outs.all Except.isOk
  | [], _, _ => rfl
  | .error _ :: _, _, _ => rfl
  | .ok r :: outs, ex, out => by
    rw [await, isOk_of_await]
    rfl

/-- The loop over the groups runs those that are started, and awaits their workers in order. -/
theorem executeGroups_started (groups : List (List ℕ)) (ex : ToolExecutor) (w : W)
    (out : List ToolExecutionRecord) :
    let ran := (started sched P registry calls ctx groups w).map Prod.fst
    let run := sched.runGroups (launch P registry calls ctx) ran w
    executeGroups sched P registry calls ctx groups ex w out
      = ((await run.1 ex out).1, (await run.1 ex out).2, run.2) := by
  induction groups generalizing ex w out with
  | nil => rfl
  | cons g groups ih =>
    unfold executeGroups started
    dsimp only
    have hall := isOk_of_await (sched.runGroup (launch P registry calls ctx) g w).1 ex out
    rcases hawait : await (sched.runGroup (launch P registry calls ctx) g w).1 ex out with
      ⟨e | out₁, ex₁⟩
    · rw [hawait] at hall
      rw [if_neg (by rw [← hall]; exact Bool.false_ne_true)]
      simp only [List.map_cons, List.map_nil, Scheduler.runGroups, List.append_nil, hawait]
    · have hall' : (sched.runGroup (launch P registry calls ctx) g w).1.all Except.isOk = true := by
        rw [← hall, hawait]
        rfl
      rw [if_pos hall']
      obtain ⟨r₁, hrun₁, rfl, rfl⟩ := await_eq_ok hawait
      dsimp only
      rw [ih]
      simp only [List.map_cons, Scheduler.runGroups, hrun₁, await_append]

/-- A batch that returns has started all its groups. -/
theorem started_of_isOk : ∀ (groups : List (List ℕ)) (w : W),
    (∀ r ∈ (sched.runGroups (launch P registry calls ctx)
        ((started sched P registry calls ctx groups w).map Prod.fst) w).1, r.isOk) →
      (started sched P registry calls ctx groups w).map Prod.fst = groups
  | [], _, _ => rfl
  | g :: groups, w, h => by
    unfold started at h ⊢
    simp only [List.map_cons, Scheduler.runGroups, List.mem_append, or_imp, forall_and] at h ⊢
    rw [if_pos (List.all_eq_true.2 h.1)] at h ⊢
    rw [started_of_isOk groups _ h.2]

/-- `execute` runs the groups `ran` and no others, and awaits their workers in order. -/
def Runs (ex : ToolExecutor) (w : W) (ran : List (List ℕ)) : Prop :=
  let run := sched.runGroups (launch P registry calls ctx) ran w
  let awaited := await run.1 ex []
  execute sched P registry ex calls ctx w = (awaited.1, awaited.2, run.2)

theorem runs_started (ex : ToolExecutor) (w : W) :
    Runs sched P registry calls ctx ex w
      ((started sched P registry calls ctx (groupsOf registry calls ex) w).map Prod.fst) := by
  unfold Runs execute
  dsimp only
  split_ifs with hempty
  · obtain rfl := List.isEmpty_iff.1 hempty
    have hgroups : groupsOf registry [] ex = [[]] := by
      unfold groupsOf executionGroups
      cases ex.parallel_safe <;> rfl
    simp [hgroups, started, Scheduler.runGroups, Scheduler.runGroup_nil, await]
  · exact executeGroups_started sched P registry calls ctx _ ex w []

theorem mem_of_await_eq_ok {outs : List (Except Exn ToolExecutionRecord)} {ex ex' : ToolExecutor}
    {out out' : List ToolExecutionRecord} (h : await outs ex out = (.ok out', ex')) :
    ∀ r ∈ out', r ∈ out ∨ .ok r ∈ outs := by
  obtain ⟨records, rfl, rfl, -⟩ := await_eq_ok h
  intro r hr
  exact (List.mem_append.1 hr).imp_right List.mem_map_of_mem

section Forall

variable {Q : ToolExecutionRecord → Prop}

theorem forall_executeGroups
    (hlaunch : ∀ i w, (launch P registry calls ctx i w).1.Returns
      fun out => ∀ r, out = .ok r → Q r) :
    ∀ {groups : List (List ℕ)} {ex ex' : ToolExecutor} {w w' : W}
      {out out' : List ToolExecutionRecord}, (∀ r ∈ out, Q r) →
      executeGroups sched P registry calls ctx groups ex w out = (.ok out', ex', w') →
      ∀ r ∈ out', Q r
  | [], ex, ex', w, w', out, out', hout, h => by
    cases h
    exact hout
  | g :: groups, ex, ex', w, w', out, out', hout, h => by
    obtain ⟨out₁, ex₁, hawait, h⟩ := executeGroups_cons_eq_ok sched P registry calls ctx h
    refine forall_executeGroups hlaunch (fun r hr => ?_) h
    rcases mem_of_await_eq_ok hawait r hr with hr | hr
    · exact hout r hr
    · have hrun := (sched.sound (launch P registry calls ctx) g w).returns
        (Q := fun _ out => ∀ r, out = .ok r → Q r) fun i _ w => hlaunch i w
      obtain ⟨k, hk, he⟩ := List.mem_iff_getElem.1 hr
      exact (List.forall₂_iff_get.1 hrun).2 k (hrun.length_eq ▸ hk) hk r he

/-- What every record that a worker can return satisfies, the records of a batch satisfy. -/
theorem forall_execute
    (hlaunch : ∀ i w, (launch P registry calls ctx i w).1.Returns
      fun out => ∀ r, out = .ok r → Q r)
    {ex ex' : ToolExecutor} {w w' : W} {records : List ToolExecutionRecord}
    (h : execute sched P registry ex calls ctx w = (.ok records, ex', w')) :
    ∀ r ∈ records, Q r := by
  unfold execute at h
  split_ifs at h
  · cases h
    simp
  · exact forall_executeGroups sched P registry calls ctx hlaunch (by simp) h

end Forall

/-- With tools that return normally, the `k`-th record is that of the `k`-th call in the order of
the groups. -/
theorem execute_returns (hreg : ∀ call ∈ calls, registry.ReturnsOn call) (ex : ToolExecutor)
    (w : W) :
    ∃ records ex' w', execute sched P registry ex calls ctx w = (.ok records, ex', w')
      ∧ List.Forall₂ (fun i r => r.IsOf (calls.getD i {})) (groupsOf registry calls ex).flatten
        records := by
  by_cases hne : calls = []
  · subst hne
    refine ⟨[], ex, w, rfl, ?_⟩
    rw [List.perm_nil.1 (groupsOf_perm registry [] ex)]
    exact .nil
  · have hlaunch : ∀ i ∈ (groupsOf registry calls ex).flatten, ∀ w,
        (launch P registry calls ctx i w).1.Returns
          fun r => ∃ record, r = .ok record ∧ record.IsOf (calls.getD i {}) := by
      intro i hi w
      have hlt := List.mem_range.1 ((groupsOf_perm registry calls ex).subset hi)
      exact invoke_one_returns (hreg _ (by simp [hlt])) _
    have hret := sched.runGroups_returns (groupsOf registry calls ex) w hlaunch
    obtain ⟨records, hrecords, hof⟩ := exists_records hret
    exact ⟨records, _, _, execute_ok sched P registry calls ctx ex w records hrecords hne, hof⟩

/-- Each group is started in the world that those before it leave. -/
theorem mem_started {x : List ℕ × W} : ∀ {groups : List (List ℕ)} {w : W},
    x ∈ started sched P registry calls ctx groups w →
      ∃ before after, groups = before ++ x.1 :: after
        ∧ x.2 = (sched.runGroups (launch P registry calls ctx) before w).2
  | [], w, h => absurd h List.not_mem_nil
  | g :: groups, w, h => by
    unfold started at h
    rcases List.mem_cons.1 h with rfl | h
    · exact ⟨[], groups, rfl, rfl⟩
    · split_ifs at h
      · obtain ⟨before, after, rfl, hworld⟩ := mem_started h
        exact ⟨g :: before, after, rfl, hworld⟩
      · exact absurd h List.not_mem_nil

/-- Before a group with the call `j` is started, one with the call `i` has been run to its end. -/
def RunsAfter (ex : ToolExecutor) (w : W) (i j : ℕ) : Prop :=
  ∀ x ∈ started sched P registry calls ctx (groupsOf registry calls ex) w, j ∈ x.1 →
    ∃ before after, groupsOf registry calls ex = before ++ x.1 :: after ∧ i ∈ before.flatten
      ∧ x.2 = (sched.runGroups (launch P registry calls ctx) before w).2

variable {calls} in
theorem runsAfter_of_group_lt {ex : ToolExecutor} (hparallel : ex.parallel_safe = true) (w : W)
    {i j : ℕ}
    (hlt : (callGraph registry calls).group_of i < (callGraph registry calls).group_of j) :
    RunsAfter sched P registry calls ctx ex w i j := by
  intro x hx hj
  obtain ⟨before, after, hsplit, hworld⟩ := mem_started sched P registry calls ctx hx
  refine ⟨before, after, hsplit, ?_, hworld⟩
  have hjlt : j < calls.length := by
    refine List.mem_range.1 ((groupsOf_perm registry calls ex).subset ?_)
    rw [hsplit]
    simp [hj]
  have hgroups : (callGraph registry calls).schedule = before ++ x.1 :: after := by
    have hpos : 0 < (callGraph registry calls).size := by
      rw [callGraph_size]
      omega
    rw [← hsplit, groupsOf, ← callGraph_size registry calls, executionGroups_eq hpos,
      if_pos hparallel]
  have hplace : (callGraph registry calls).schedule[before.length]? = some x.1 := by
    rw [hgroups, List.getElem?_append_right le_rfl, Nat.sub_self, List.getElem?_cons_zero]
  obtain ⟨hsize, hcolour⟩ := (DependencyGraph.mem_schedule_getElem? hplace).1 hj
  rw [DependencyGraph.group_of_eq_colour hsize, hcolour] at hlt
  -- the first group with the call `i` stands before that with the call `j`
  have hbefore : (callGraph registry calls).group_of i
      < (callGraph registry calls).schedule.length :=
    hlt.trans (List.getElem?_eq_some_iff.1 hplace).1
  have hmem := List.findIdx_getElem (w := hbefore)
  rw [List.contains_iff_mem] at hmem
  have hget : before[(callGraph registry calls).group_of i]?
      = some ((callGraph registry calls).schedule[(callGraph registry calls).group_of i]) := by
    rw [← List.getElem?_eq_getElem hbefore, hgroups, List.getElem?_append_left hlt]
  exact List.mem_flatten.2 ⟨_, List.mem_of_getElem? hget, hmem⟩

end ToolExecutor

namespace DependencyGraph

/-- Conflicting calls get different groups, and the earlier call gets the earlier group, for every
conflicting pair, exactly when each call conflicts with an earlier one at each depth below its own.
`execute` runs the groups that it starts one after the other, the call with the earlier group
first. -/
theorem schedule_order_iff (claims : List (ToolCall × List Str)) :
    (∀ i j, (ofCalls claims).has_conflict i j = true →
        (ofCalls claims).group_of i ≠ (ofCalls claims).group_of j)
      ∧ ((∀ i j, i < j → (ofCalls claims).has_conflict i j = true →
          (ofCalls claims).group_of i < (ofCalls claims).group_of j)
        ↔ ∀ j < claims.length, ∀ d < FirstFit.depth (ofCalls claims).Conflict j,
          ∃ k < j, (ofCalls claims).has_conflict j k = true
            ∧ FirstFit.depth (ofCalls claims).Conflict k = d)
      ∧ ∀ {W U : Type} (sched : Scheduler ℕ W (Except Exn ToolExecutionRecord)) (P : Platform W U)
        (registry : ToolRegistry W U) (calls : List ToolCall) (ctx : Option (Ctx U))
        (ex : ToolExecutor) (w : W), ex.parallel_safe = true →
          ToolExecutor.Runs sched P registry calls ctx ex w ((ToolExecutor.started sched P registry
            calls ctx (ToolExecutor.groupsOf registry calls ex) w).map Prod.fst)
          ∧ ∀ i j, (callGraph registry calls).group_of i < (callGraph registry calls).group_of j →
            ToolExecutor.RunsAfter sched P registry calls ctx ex w i j :=
  ⟨(group_order_iff claims).1, (group_order_iff claims).2,
    fun sched P registry calls ctx ex w hparallel =>
      ⟨ToolExecutor.runs_started sched P registry calls ctx ex w, fun _ _ hlt =>
        ToolExecutor.runsAfter_of_group_lt sched P registry ctx hparallel w hlt⟩⟩

end DependencyGraph

end Praxis
