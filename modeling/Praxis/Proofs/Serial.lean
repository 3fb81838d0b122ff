import Praxis.Builtin
import Praxis.Proofs.Execution

/-!
# File calls are serializable

Over a flat file system a `read_file` or `write_file` touches no file but its own, and two such
calls conflict exactly when they are of one file. Being of one file is transitive, so the groups of
`schedule` keep the calls of each file in the order they were emitted.
-/

namespace Praxis

open Interleave (Proc Scheduler Within Indep runOrder)

/-- What a well-formed file call asks for. -/
inductive FileOp
  | read (path : Str)
  | write (path content : Str)
  deriving DecidableEq

def FileOp.path : FileOp → Str
  | read path => path
  | write path _ => path

/-- The keys that the tool of a file call claims. -/
def FileOp.resources : FileOp → List Str
  | read path => ["file:read:" ++ path]
  | write path _ => ["file:read:" ++ path, "file:write:" ++ path]

/-- A `read_file` or `write_file` whose path is a non-empty string and, for a write, whose content
is a string. -/
inductive IsFileOp (T : JsonText) (call : ToolCall) : FileOp → Prop
  | read {args : Json} {path : Str} : call.name = "read_file" → T.parse call.arguments = some args →
    args.field? "path" = some (.string path) → path ≠ [] → IsFileOp T call (.read path)
  | write {args : Json} {path content : Str} : call.name = "write_file" →
    T.parse call.arguments = some args → args.field? "path" = some (.string path) → path ≠ [] →
    args.field? "content" = some (.string content) → IsFileOp T call (.write path content)

variable {T : JsonText} {call : ToolCall} {op : FileOp}

theorem arg_string_of_field {args : Json} {key s : Str} (hargs : T.parse call.arguments = some args)
    (hfield : args.field? key = some (.string s)) : arg_string T call.arguments key = s := by
  unfold arg_string
  rw [hargs]
  simp only [hfield]

section Registry

variable {W U : Type} (P : Platform W U) (registry : ToolRegistry W U) (tools_ctx : Option (Ctx U))

theorem IsFileOp.resourcesOf (h : IsFileOp T call op) :
    resourcesOf (register_builtin_tools T P registry tools_ctx) call = op.resources := by
  unfold Praxis.resourcesOf
  cases h with
  | read hname hargs hpath hne =>
    rw [hname, find_read_file]
    simp [ReadFileTool, ReadFileTool.resources_for, FileOp.resources,
      arg_string_of_field hargs hpath, hne]
  | write hname hargs hpath hne _ =>
    rw [hname, find_write_file]
    simp [WriteFileTool, WriteFileTool.resources_for, FileOp.resources,
      arg_string_of_field hargs hpath, hne]

end Registry

/-- File calls share a key if they are of one file. -/
theorem FileOp.shares_iff (a b : FileOp) :
    (∃ key ∈ a.resources, key ∈ b.resources) ↔ a.path = b.path := by
  have hinj : ∀ (pre : Str) (p q : Str), pre ++ p = pre ++ q ↔ p = q :=
    fun pre p q => List.append_right_inj pre
  have hne : ∀ p q : Str, lit "file:read:" ++ p ≠ lit "file:write:" ++ q := by
    intro p q h
    have := congrArg (fun s : Str => s[5]?) h
    simp [lit] at this
  cases a <;> cases b <;>
    simp only [resources, path, List.mem_cons, List.not_mem_nil, or_false,
      exists_eq_left, exists_eq_or_imp, hinj, hne, (hne _ _).symm, false_or, or_false, or_self]

section Invoke

variable {W U : Type} (P : Platform W U)

/-- A read once its arguments have been checked. -/
def readPath (active : Ctx U) (path : Str) : ToolM W ToolResult := do
  let content ← active.read_file P path
  let found ← if content.isEmpty then active.file_exists P path else pure true
  if found then
    pure
      { output := .ofFields [("path", .string path), ("content", .string content)]
        observed_resources := [path] }
  else pure (.failed ("file not found: " ++ path))

/-- What the tool of a file call does; `active` is the context that the read tool holds. -/
def FileOp.invoke (active : Ctx U) : FileOp → ToolM W ToolResult
  | read path => readPath P active path
  | write path content => WriteFileTool.store P path content

variable (registry : ToolRegistry W U) (tools_ctx : Option (Ctx U))

/-- A file call finds its tool, which gets past the checks of its arguments. -/
theorem IsFileOp.find (h : IsFileOp T call op) :
    ∃ tool, (register_builtin_tools T P registry tools_ctx).find call.name = some tool
      ∧ ∀ c, tool.invoke call c = op.invoke P (tools_ctx.getD .basic) := by
  cases h with
  | read hname hargs hpath _ =>
    refine ⟨_, hname ▸ find_read_file T P registry tools_ctx, fun c => ?_⟩
    simp only [ReadFileTool, ReadFileTool.invoke, hargs, Option.bind_some, hpath]
    rfl
  | write hname hargs hpath _ hcontent =>
    refine ⟨_, hname ▸ find_write_file T P registry tools_ctx, fun c => ?_⟩
    simp only [WriteFileTool, WriteFileTool.invoke, hargs, Option.bind_some, hpath, hcontent,
      Option.map_some]
    rfl

theorem IsFileOp.invoke_one (h : IsFileOp T call op) (c : Ctx U) :
    invoke_one (register_builtin_tools T P registry tools_ctx) call (some c) = (do
      let result ← op.invoke P (tools_ctx.getD .basic)
      pure { call.toRecord result with observed_resources := result.observed_resources }) := by
  obtain ⟨tool, hfind, hinvoke⟩ := h.find P registry tools_ctx
  unfold Praxis.invoke_one
  rw [invokePath_eq_invoke.2 ⟨hfind, rfl⟩]
  simp only [hinvoke]

end Invoke

/-- What a file call returns and leaves on a flat file system. -/
def FileOp.apply : FileOp → FlatFs → ToolResult × FlatFs
  | read path, fs =>
    match fs path with
    | some content =>
      ({ output := .ofFields [("path", .string path), ("content", .string content)]
         observed_resources := [path] }, fs)
    | none => (.failed ("file not found: " ++ path), fs)
  | write path content, fs =>
    ({ output := .ofFields [("path", .string path), ("bytes", .number_unsigned content.length)]
       observed_resources := [path] }, Function.update fs path (some content))

theorem FileOp.exec_invoke (below : FlatFs → Str → List Str) (op : FileOp) (fs : FlatFs) :
    ToolM.exec (op.invoke (flatPlatform below) .basic) fs
      = (.ok (op.apply fs).1, (op.apply fs).2) := by
  cases op with
  | read path =>
    simp only [invoke, readPath, Ctx.read_file, Ctx.file_exists, flatPlatform, apply,
      ToolM.exec_bind, ToolM.exec_lift, Proc.run_read]
    cases hfs : fs path with
    | none => simp [hfs]
    | some content => by_cases hc : content.isEmpty <;> simp [hfs, hc]
  | write path content =>
    simp [invoke, WriteFileTool.store, flatPlatform, apply]

section Returns

variable {W α β : Type}

theorem returns_bind {x : ToolM W α} {f : α → ToolM W β}
    (hx : x.run.Returns fun r => ∃ a, r = .ok a)
    (hf : ∀ a, (f a).run.Returns fun r => ∃ b, r = .ok b) :
    (x >>= f).run.Returns fun r => ∃ b, r = .ok b :=
  hx.bind fun r hr => by
    obtain ⟨a, rfl⟩ := hr
    exact hf a

theorem returns_lift (p : Proc W α) :
    (ExceptT.lift p : ToolM W α).run.Returns fun r => ∃ a, r = .ok a :=
  (Proc.returns_true p).bind fun a _ => .ret ⟨a, rfl⟩

end Returns

/-- On a flat file system a file call never throws. -/
theorem FileOp.returns (below : FlatFs → Str → List Str) (active : Ctx Empty) (op : FileOp) :
    (op.invoke (flatPlatform below) active).run.Returns fun r => ∃ result, r = .ok result := by
  have hpure : ∀ result : ToolResult,
      (pure result : ToolM FlatFs ToolResult).run.Returns fun r => ∃ result, r = .ok result :=
    fun result => .ret ⟨result, rfl⟩
  cases op with
  | read path =>
    have hread : (active.read_file (flatPlatform below) path).run.Returns
        fun r => ∃ content, r = .ok content := by
      cases active with
      | basic => exact returns_lift _
      | stateless => exact .ret ⟨_, rfl⟩
      | user u => exact u.elim
    have hexists : (active.file_exists (flatPlatform below) path).run.Returns
        fun r => ∃ found, r = .ok found := by
      cases active with
      | basic => exact .act fun w => .ret ⟨_, rfl⟩
      | stateless => exact .ret ⟨_, rfl⟩
      | user u => exact u.elim
    refine returns_bind hread fun content => ?_
    dsimp only
    split_ifs
    · refine returns_bind hexists fun found => ?_
      split_ifs <;> exact hpure _
    · exact hpure _
  | write path content =>
    refine returns_bind (returns_lift _) fun _ => returns_bind (returns_lift _) fun opened => ?_
    cases opened with
    | false => exact hpure _
    | true =>
      refine returns_bind (returns_lift _) fun written => ?_
      cases written <;> exact hpure _

theorem IsFileOp.returnsOn (h : IsFileOp T call op) (below : FlatFs → Str → List Str)
    (registry : ToolRegistry FlatFs Empty) (tools_ctx : Option (Ctx Empty)) :
    (register_builtin_tools T (flatPlatform below) registry tools_ctx).ReturnsOn call := by
  intro tool htool ctx
  obtain ⟨tool', hfind, hinvoke⟩ := h.find (flatPlatform below) registry tools_ctx
  obtain rfl : tool' = tool := Option.some.inj (hfind.symm.trans htool)
  rw [hinvoke]
  exact op.returns below _

section Footprint

variable {S : Set Str} {α β : Type}

theorem within_bind {x : ToolM FlatFs α} {f : α → ToolM FlatFs β} (hx : Within S x.run)
    (hf : ∀ a, Within S (f a).run) : Within S (x >>= f).run :=
  hx.bind fun r => match r with
    | .ok a => hf a
    | .error e => .ret (Except.error e)

theorem within_lift {p : Proc FlatFs α} (hp : Within S p) :
    Within S (ExceptT.lift p : ToolM FlatFs α).run :=
  hp.bind fun a => .ret (Except.ok a)

variable (below : FlatFs → Str → List Str)

theorem read_file_within (ctx : Ctx Empty) (path : Str) :
    Within {path} (ctx.read_file (flatPlatform below) path).run := by
  cases ctx with
  | basic => exact within_lift (.read fun w w' h => by simp [flatPlatform, h path rfl])
  | stateless => exact .ret _
  | user u => exact u.elim

theorem file_exists_within (ctx : Ctx Empty) (path : Str) :
    Within {path} (ctx.file_exists (flatPlatform below) path).run := by
  cases ctx with
  | basic => exact .read fun w w' h => by simp [flatPlatform, h path rfl]
  | stateless => exact .ret _
  | user u => exact u.elim

theorem store_within (path content : Str) :
    Within {path} (WriteFileTool.store (flatPlatform below) path content : ToolM FlatFs _).run := by
  have hupdate : ∀ (w : FlatFs) (l : Str) (v : Option Str), l ∉ ({path} : Set Str) →
      Function.update w path v l = w l := fun w l v hl => Function.update_of_ne hl v w
  refine within_bind (within_lift (.step (fun _ _ _ => rfl) fun _ _ h => ⟨rfl, h⟩)) fun _ => ?_
  refine within_bind (within_lift (.step (fun w l hl => hupdate w l _ hl)
    fun w w' _ => ⟨rfl, fun l hl => ?_⟩)) fun opened => ?_
  · obtain rfl : l = path := hl
    simp [flatPlatform]
  · cases opened with
    | false => exact .ret _
    | true =>
      refine within_bind (within_lift (.step (fun w l hl => hupdate w l _ hl)
        fun w w' h => ⟨rfl, fun l hl => ?_⟩)) fun written => ?_
      · obtain rfl : l = path := hl
        simp [flatPlatform, h l rfl]
      · cases written <;> exact .ret _

theorem FileOp.within (active : Ctx Empty) (op : FileOp) :
    Within {op.path} (op.invoke (flatPlatform below) active).run := by
  cases op with
  | read path =>
    refine within_bind (read_file_within below active path) fun content => ?_
    have hend : ∀ found : Bool, Within {path} (if found = true then
        (pure
          { output := .ofFields [("path", .string path), ("content", .string content)]
            observed_resources := [path] } : ToolM FlatFs ToolResult)
        else pure (.failed ("file not found: " ++ path))).run := by
      intro found
      split_ifs <;> exact .ret _
    dsimp only
    split_ifs
    · exact within_bind (file_exists_within below active path) hend
    · exact within_bind (.ret _) hend
  | write path content => exact store_within below path content

variable (registry : ToolRegistry FlatFs Empty) (tools_ctx : Option (Ctx Empty))

theorem IsFileOp.within (h : IsFileOp T call op) (ctx : Option (Ctx Empty)) :
    Within {op.path}
      (Praxis.invoke_one (register_builtin_tools T (flatPlatform below) registry tools_ctx) call
        ctx).run := by
  cases ctx with
  | none =>
    unfold Praxis.invoke_one invokePath
    cases (register_builtin_tools T (flatPlatform below) registry tools_ctx).find call.name <;>
      exact .ret _
  | some c =>
    rw [h.invoke_one]
    exact within_bind (op.within below _) fun _ => .ret _

end Footprint

section Serial

variable (T : JsonText) (below : FlatFs → Str → List Str) (registry : ToolRegistry FlatFs Empty)
  (tools_ctx ctx : Option (Ctx Empty)) (calls : List ToolCall)

/-- The registry with the built-in tools over a flat file system. -/
abbrev flatRegistry : ToolRegistry FlatFs Empty :=
  register_builtin_tools T (flatPlatform below) registry tools_ctx

/-- The calls one at a time, in list order, each with what `invoke_one` returns. -/
def oneAtATime (calls : List ToolCall) (fs : FlatFs) :
    List (ToolCall × Except Exn ToolExecutionRecord) × FlatFs :=
  runOrder (fun call => invoke_one (flatRegistry T below registry tools_ctx) call ctx) calls fs

theorem launch_flat (reg : ToolRegistry FlatFs Empty) (i : ℕ) (w : FlatFs) :
    launch (flatPlatform below) reg calls ctx i w = (invoke_one reg (calls.getD i {}) ctx, w) := by
  unfold launch forkContext
  cases ctx with
  | none => rfl
  | some c =>
    cases c with
    | basic => rfl
    | stateless => rfl
    | user u => exact u.elim

variable {T calls}

/-- Two calls of a batch of file calls conflict if they are different calls of one file. -/
theorem conflict_iff_path {ops : ℕ → FileOp}
    (hops : ∀ i < calls.length, IsFileOp T (calls.getD i {}) (ops i)) {i j : ℕ}
    (hi : i < calls.length) (hj : j < calls.length) :
    (callGraph (flatRegistry T below registry tools_ctx) calls).Conflict i j
      ↔ i ≠ j ∧ (ops i).path = (ops j).path := by
  rw [callGraph_conflict_iff, (hops i hi).resourcesOf, (hops j hj).resourcesOf,
    FileOp.shares_iff]
  exact ⟨fun h => ⟨h.1, h.2.2.2⟩, fun h => ⟨h.1, hi, hj, h.2⟩⟩

theorem groups_keep_order {ops : ℕ → FileOp}
    (hops : ∀ i < calls.length, IsFileOp T (calls.getD i {}) (ops i)) :
    (callGraph (flatRegistry T below registry tools_ctx) calls).schedule.flatten.Pairwise
      fun i j => (ops i).path = (ops j).path → i < j := by
  have hlt : ∀ {i j}, (callGraph (flatRegistry T below registry tools_ctx) calls).Conflict i j →
      i < calls.length ∧ j < calls.length := fun h =>
    have h' := (callGraph_conflict_iff _ calls).1 h
    ⟨h'.2.1, h'.2.2.1⟩
  have hinc : FirstFit.Increasing
      (callGraph (flatRegistry T below registry tools_ctx) calls).Conflict
      calls.length := FirstFit.increasing_of_trans fun i j k hik hij hjk => by
    obtain ⟨hi, hj⟩ := hlt hij
    obtain ⟨-, hk⟩ := hlt hjk
    have h1 := (conflict_iff_path below registry tools_ctx hops hi hj).1 hij
    have h2 := (conflict_iff_path below registry tools_ctx hops hj hk).1 hjk
    exact (conflict_iff_path below registry tools_ctx hops hi hk).2 ⟨hik, h1.2.trans h2.2⟩
  have hperm := FirstFit.classes_perm
    (R := (callGraph (flatRegistry T below registry tools_ctx) calls).Conflict) calls.length
  have hnd := hperm.nodup_iff.2 List.nodup_range
  rw [DependencyGraph.schedule_eq_classes, callGraph_size]
  refine ((List.Pairwise.and_mem.1
    ((FirstFit.flatten_pairwise_of_increasing hinc).and hnd))).imp fun {i j} h hpath => ?_
  obtain ⟨hi, hj, hord, hne⟩ := h
  exact hord ((conflict_iff_path below registry tools_ctx hops
    (List.mem_range.1 (hperm.subset hi)) (List.mem_range.1 (hperm.subset hj))).2 ⟨hne, hpath⟩)

variable (T calls) in
/-- One call at a time is the calls' indices in order. -/
theorem oneAtATime_eq (fs : FlatFs) :
    let serial := runOrder
      (fun i => invoke_one (flatRegistry T below registry tools_ctx) (calls.getD i {}) ctx)
      (List.range calls.length) fs
    (oneAtATime T below registry tools_ctx ctx calls fs).1.map Prod.snd = serial.1.map Prod.snd
      ∧ (oneAtATime T below registry tools_ctx ctx calls fs).2 = serial.2 := by
  have hcalls : calls = (List.range calls.length).map fun i => calls.getD i {} := by
    refine List.ext_getElem (by simp) fun i hi _ => ?_
    simp [hi]
  have hmap := Interleave.runOrder_map
    (fun call => invoke_one (flatRegistry T below registry tools_ctx) call ctx)
    (fun i => calls.getD i {}) (List.range calls.length) fs
  rw [← hcalls] at hmap
  unfold oneAtATime
  rw [hmap]
  simp [Function.comp_def]

/-- Two workers of one group are of different files. -/
theorem groups_apart {ops : ℕ → FileOp}
    (hops : ∀ i < calls.length, IsFileOp T (calls.getD i {}) (ops i)) {g : List ℕ}
    (hg : g ∈ (callGraph (flatRegistry T below registry tools_ctx) calls).schedule) {i j : ℕ}
    (hi : i ∈ g) (hj : j ∈ g) (hij : i ≠ j) : (ops i).path ≠ (ops j).path := by
  have hlt : ∀ k ∈ g, k < calls.length := by
    intro k hk
    have hmem := List.mem_flatten.2 ⟨g, hg, hk⟩
    rw [DependencyGraph.schedule_eq_classes, FirstFit.mem_classes_flatten, callGraph_size] at hmem
    exact hmem
  intro hpath
  exact DependencyGraph.schedule_no_conflict hg hi hj
    ((conflict_iff_path below registry tools_ctx hops (hlt i hi) (hlt j hj)).2 ⟨hij, hpath⟩)

/-- However the workers of the groups interleave, it is as if they ran in order of emission: the
results are a permutation of the results in order, and the file system is the same. -/
theorem runGroups_serial {ops : ℕ → FileOp}
    (hops : ∀ i < calls.length, IsFileOp T (calls.getD i {}) (ops i))
    (sched : Scheduler ℕ FlatFs (Except Exn ToolExecutionRecord)) (fs : FlatFs) :
    let reg := flatRegistry T below registry tools_ctx
    let groups := (callGraph reg calls).schedule
    let run := sched.runGroups (launch (flatPlatform below) reg calls ctx) groups fs
    let serial := runOrder (fun i => invoke_one reg (calls.getD i {}) ctx)
      (List.range calls.length) fs
    (groups.flatten.zip run.1).Perm serial.1 ∧ run.2 = serial.2 := by
  intro reg groups run serial
  have hperm : groups.flatten.Perm (List.range calls.length) := by
    have h := FirstFit.classes_perm (R := (callGraph reg calls).Conflict) (callGraph reg calls).size
    rwa [← DependencyGraph.schedule_eq_classes, callGraph_size] at h
  have hwithin : ∀ i ∈ groups.flatten, Within {(ops i).path}
      (invoke_one reg (calls.getD i {}) ctx) := fun i hi =>
    (hops i (List.mem_range.1 (hperm.subset hi))).within below registry tools_ctx ctx
  have hrun := sched.runGroups_eq_runOrder groups fs (hperm.nodup_iff.2 List.nodup_range)
    (fun i _ w => launch_flat below ctx calls reg i w) hwithin
    fun g hg i hi j hj hij l hl hl' => groups_apart below registry tools_ctx hops hg hi hj hij
      ((Set.mem_singleton_iff.1 hl).symm.trans (Set.mem_singleton_iff.1 hl'))
  -- workers that depend on each other are of one file, and those the groups keep in order
  have hord : groups.flatten.Pairwise fun i j =>
      ¬ Indep (invoke_one reg (calls.getD i {}) ctx) (invoke_one reg (calls.getD j {}) ctx) →
        i < j :=
    (List.Pairwise.and_mem.1 (groups_keep_order below registry tools_ctx hops)).imp
      fun {i j} h hdep => h.2.2 (by
        by_contra hpath
        exact hdep ((hwithin i h.1).indep (hwithin j h.2.1) fun l hl hl' =>
          hpath ((Set.mem_singleton_iff.1 hl).symm.trans (Set.mem_singleton_iff.1 hl'))))
  have hcongr := Interleave.runOrder_congr (p := fun i => invoke_one reg (calls.getD i {}) ctx)
    (r := (· < ·)) (fun i j h h' => absurd h (not_lt.2 h'.le)) (List.range calls.length)
    groups.flatten fs hperm List.pairwise_lt_range hord
  rwa [hrun] at hcongr

/-- Executed in parallel, a batch of file calls leaves the file system that the calls leave one at
a time, and each call gets the result it gets there. -/
theorem execute_serializable (hcalls : ∀ call ∈ calls, ∃ op, IsFileOp T call op)
    (sched : Scheduler ℕ FlatFs (Except Exn ToolExecutionRecord)) (ex : ToolExecutor)
    (hparallel : ex.parallel_safe = true) (fs : FlatFs) :
    let reg := flatRegistry T below registry tools_ctx
    let order := (callGraph reg calls).schedule.flatten
    let serial := oneAtATime T below registry tools_ctx ctx calls fs
    order.Perm (List.range calls.length)
      ∧ ∃ records ex',
        ToolExecutor.execute sched (flatPlatform below) reg ex calls ctx fs
          = (.ok records, ex', serial.2)
        ∧ order.map (fun i => (serial.1.map Prod.snd)[i]?)
          = records.map fun r => some (.ok r) := by
  intro reg order serial
  have hperm : order.Perm (List.range calls.length) := by
    have h := FirstFit.classes_perm (R := (callGraph reg calls).Conflict) (callGraph reg calls).size
    rwa [← DependencyGraph.schedule_eq_classes, callGraph_size] at h
  refine ⟨hperm, ?_⟩
  by_cases hne : calls = []
  · subst hne
    exact ⟨[], ex, rfl, by rw [List.perm_nil.1 hperm]; rfl⟩
  have hexists : ∀ i, ∃ op, i < calls.length → IsFileOp T (calls.getD i {}) op := by
    intro i
    by_cases hi : i < calls.length
    · obtain ⟨op, hop⟩ := hcalls (calls.getD i {}) (by simp [hi])
      exact ⟨op, fun _ => hop⟩
    · exact ⟨.read [], fun h => absurd h hi⟩
  choose ops hops using hexists
  have hgroups : ToolExecutor.groupsOf reg calls ex = (callGraph reg calls).schedule := by
    unfold ToolExecutor.groupsOf
    rw [hparallel, ← callGraph_size reg calls,
      executionGroups_eq (by rw [callGraph_size]; exact List.length_pos_iff.2 hne), if_pos rfl]
  obtain ⟨hresults, hworld⟩ := runGroups_serial below registry tools_ctx ctx hops sched fs
  obtain ⟨hserial, hfs⟩ := oneAtATime_eq T below registry tools_ctx ctx calls fs
  have hlen := sched.runGroups_length (launch (flatPlatform below) reg calls ctx)
    (callGraph reg calls).schedule fs
  -- no worker throws, so what the groups return are records
  have hok := Interleave.runOrder_results (p := fun i => invoke_one reg (calls.getD i {}) ctx)
    (Q := fun _ r => ∃ record, r = .ok record) (List.range calls.length) fs fun i hi w => by
      have hop := (hops i (List.mem_range.1 hi)).returnsOn below registry tools_ctx
      obtain ⟨record, hr, -⟩ := (invoke_one_returns hop ctx).run w
      exact ⟨record, hr⟩
  obtain ⟨records, hrecords, -⟩ := ToolExecutor.exists_records (Q := fun _ _ => True)
    ((List.forall₂_iff_zip).2 ⟨hlen.symm, fun {i r} hir => by
      obtain ⟨record, hr⟩ := hok _ (hresults.subset hir)
      exact ⟨record, hr, trivial⟩⟩)
  have hexec := ToolExecutor.execute_ok sched (flatPlatform below) reg calls ctx ex fs
    records (by rw [hgroups]; exact hrecords) hne
  rw [hgroups, hworld, ← hfs] at hexec
  refine ⟨records, _, hexec, ?_⟩
  rw [Interleave.runOrder_eq_zip] at hresults
  have hall := Interleave.getElem?_of_perm_range hlen hresults
  rw [hrecords, List.map_map] at hall
  simp only [serial, hserial]
  exact hall

end Serial

/-- A write of the file `f`, and a read of it. -/
def writeThenRead : List ToolCall :=
  [{ name := "write_file"
     arguments := "\x7b\"content\":\"1\",\"path\":\"f\"\x7d"
     ordinal := 0 },
    { name := "read_file", arguments := "\x7b\"path\":\"f\"\x7d", ordinal := 1 }]

def writeThenReadText : JsonText :=
  .ofTable
    [("\x7b\"content\":\"1\",\"path\":\"f\"\x7d",
        .object [("content", .string "1"), ("path", .string "f")]),
      ("\x7b\"path\":\"f\"\x7d", .object [("path", .string "f")])]

theorem writeThenRead_serializable :
    let reg := flatRegistry writeThenReadText (fun _ _ => []) {} none
    let serial := oneAtATime writeThenReadText (fun _ _ => []) {} none (some .basic) writeThenRead
      fun _ => none
    ∃ records ex',
      ToolExecutor.execute .inOrder (flatPlatform fun _ _ => []) reg {} writeThenRead (some .basic)
          (fun _ => none)
        = (.ok records, ex', serial.2) := by
  have hcalls : ∀ call ∈ writeThenRead, ∃ op, IsFileOp writeThenReadText call op := by
    intro call hcall
    simp only [writeThenRead, List.mem_cons, List.not_mem_nil, or_false] at hcall
    rcases hcall with rfl | rfl
    · exact ⟨.write "f" "1", .write rfl rfl rfl (by decide) rfl⟩
    · exact ⟨.read "f", .read rfl rfl rfl (by decide)⟩
  obtain ⟨-, records, ex', h, -⟩ := execute_serializable (fun _ _ => []) {} none (some .basic)
    hcalls .inOrder {} rfl fun _ => none
  exact ⟨records, ex', h⟩

end Praxis
