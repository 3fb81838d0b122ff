import Praxis.Lib.Solo
import Praxis.Proofs.Dispatch
import Praxis.Proofs.Execution
import Praxis.Proofs.Isolation
import Praxis.Proofs.Pipes

/-!
# The remote calls of a batch

A client takes the next message for the answer to its request, so calls of one server must not
interleave. Every remote tool claims the same resource. In a batch their calls reach the servers one
after the other, as the batch has them, whatever the other calls do to the rest of the world and
however the workers are interleaved (`remote_calls_in_turn`).
-/

namespace Praxis

open Interleave (Proc Scheduler runOrder)
open Effect (Prog)

variable {W S F U α : Type} {T : JsonText} {Q : ℕ → JsonRpcTransport S} {library : Exn → Str}

/-- The transport in a world in which there is more than the servers. -/
def JsonRpcTransport.beside (Q : JsonRpcTransport S) : JsonRpcTransport (S × F) where
  send := fun payload w =>
    let sent := Q.send payload w.1
    (sent.1, (sent.2, w.2))
  receive := fun w =>
    let received := Q.receive w.1
    (received.1, (received.2, w.2))

namespace JsonRpcClient

/-- The same client and the same servers. -/
def Beside (c : JsonRpcClient S) (d : JsonRpcClient (S × F)) : Prop :=
  d.next_id = c.next_id ∧ d.transport.1 = c.transport

theorem alike_beside (Q : JsonRpcTransport S) :
    Alike (fun _ => True) (Beside (F := F)) Q Q.beside where
  next_id := fun _ _ h => h.1
  count := fun _ _ _ h => ⟨rfl, h.2⟩
  send := fun payload c d h _ => by
    obtain ⟨hid, hservers⟩ := h
    simp only [sending, JsonRpcTransport.beside, Prog.exec_of, hservers]
    rcases Q.send payload c.transport with ⟨e | _, s⟩
    · exact ⟨rfl, hid, rfl⟩
    · exact ⟨rfl, trivial, hid, rfl⟩
  receive := fun c d h => by
    obtain ⟨hid, hservers⟩ := h
    simp only [receiving, JsonRpcTransport.beside, Prog.exec_of, hservers]
    rcases Q.receive c.transport with ⟨e | raw, s⟩
    · exact ⟨rfl, hid, rfl⟩
    · exact ⟨rfl, trivial, hid, rfl⟩
  back_count := fun _ _ _ => trivial
  back_send := fun _ _ _ => trivial
  back_receive := fun _ _ => trivial

end JsonRpcClient

namespace McpWorld

/-- The servers and their clients, without the rest of the world. -/
def servers (w : McpWorld (S × F)) : McpWorld S :=
  { world := w.world.1, clients := w.clients, next := w.next }

open JsonRpcClient in
theorem onClient_beside {x : JsonRpcTransport S → Prog Exn (JsonRpcClient S) α}
    {y : JsonRpcTransport (S × F) → Prog Exn (JsonRpcClient (S × F)) α}
    (h : ∀ t, TogetherIf (fun _ => True) Beside (x (Q t)) (y (Q t).beside)) (c : ℕ)
    (w : McpWorld (S × F)) :
    (onClient (fun t => (Q t).beside) c y w).1 = (onClient Q c x w.servers).1
      ∧ (onClient (fun t => (Q t).beside) c y w).2.servers = (onClient Q c x w.servers).2 := by
  have hrun := h (w.clients c).transport (w.servers.client c) (w.client c) ⟨rfl, rfl⟩ trivial
  obtain ⟨houtcome, hnext, htransport⟩ :=
    (hrun.mono fun _ _ _ _ hsame => ⟨hsame.1, hsame.2.2⟩).agree
  refine ⟨houtcome.symm, ?_⟩
  show McpWorld.mk _ _ _ = McpWorld.mk _ _ _
  congr 1
  exact congrArg (fun id => Function.update w.clients c { w.clients c with next_id := id }) hnext

end McpWorld

namespace ToolM

variable {V A B : Type} {π : W → V}

theorem on_bind {x : ToolM W A} {y : ToolM V A} {f : A → ToolM W B} {g : A → ToolM V B}
    (hx : x.run.On π y.run) (hf : ∀ a, (f a).run.On π (g a).run) :
    (x >>= f).run.On π (y >>= g).run :=
  Proc.On.bind hx fun r => by
    cases r with
    | error e => exact .ret
    | ok a => exact hf a

theorem on_tryCatch {x : ToolM W A} {y : ToolM V A} {f : Exn → ToolM W A} {g : Exn → ToolM V A}
    (hx : x.run.On π y.run) (hf : ∀ e, (f e).run.On π (g e).run) :
    (tryCatch x f).run.On π (tryCatch y g).run :=
  Proc.On.bind hx fun r => by
    cases r with
    | error e => exact hf e
    | ok a => exact .ret

theorem off_bind {x : ToolM W A} {f : A → ToolM W B} (hx : x.run.Off π)
    (hf : ∀ a, (f a).run.Off π) : (x >>= f).run.Off π :=
  Proc.Keeps.bind hx fun r => by
    cases r with
    | error e => exact .ret
    | ok a => exact hf a

theorem off_read (f : W → A) : (Proc.read f).Off π := .act (fun _ => rfl) fun _ => .ret

theorem off_lift {p : Proc W A} (hp : p.Off π) : (ExceptT.lift p : ToolM W A).run.Off π :=
  hp.bind fun _ => .ret

end ToolM

namespace McpTool

open McpWorld (servers onClient_beside)
open JsonRpcClient (alike_beside)

variable {c : ℕ} {prefix_ name : Str}

/-- In the bigger world a remote call does with the servers what it does where there is nothing
else. -/
theorem on_callTool (params : Json) :
    (callTool T (fun t => (Q t).beside (F := F)) c params).run.On servers
      (callTool T Q c params).run := by
  refine ToolM.on_bind (Proc.On.step (onClient_beside (fun t => ?_) c)) fun _ =>
    Proc.On.step (onClient_beside (fun t => ?_) c)
  · exact (alike_beside (Q t)).sendRequest "tools/call" params
  · exact (alike_beside (Q t)).receive.bindIf fun raw =>
      JsonRpcClient.together_ofExcept.toIf

theorem on_invoke (call : ToolCall) (ctx : Ctx U) :
    (invoke T (fun t => (Q t).beside (F := F)) library (some c) prefix_ call ctx).run.On servers
      (invoke T Q library (some c) prefix_ call ctx).run := by
  unfold invoke
  cases T.parse call.arguments with
  | none => exact .ret
  | some params =>
    exact ToolM.on_tryCatch (ToolM.on_bind (on_callTool _) fun result => .ret) fun e => .ret

end McpTool

section Spares

variable {V : Type} {π : W → V} {P : Platform W U}

def Tool.Spares (tool : Tool W U) (π : W → V) : Prop :=
  ∀ call ctx, (tool.invoke call ctx).run.Off π

/-- Nothing that a tool can ask of the platform changes the part of the world. -/
structure Platform.Spares (P : Platform W U) (π : W → V) : Prop where
  create_parent : ∀ w path, π (P.create_parent w path) = π w
  open_trunc : ∀ w path w', P.open_trunc w path = some w' → π w' = π w
  write : ∀ w path content w', P.write w path content = some w' → π w' = π w
  spawn : ∀ program args, (P.spawn program args).Off π
  user_read_file : ∀ u path, (P.user_read_file u path).run.Off π
  user_file_exists : ∀ u path, (P.user_file_exists u path).run.Off π
  user_exec_argv : ∀ u program args, (P.user_exec_argv u program args).run.Off π
  user_fork : ∀ u w, π (P.user_fork u w).2 = π w

namespace Platform.Spares

variable (h : P.Spares π)
include h

theorem read_file : ∀ (ctx : Ctx U) (path : Str), (ctx.read_file P path).run.Off π
  | .basic, _ => ToolM.off_lift (ToolM.off_read _)
  | .stateless, _ => .ret
  | .user u, path => h.user_read_file u path

theorem file_exists : ∀ (ctx : Ctx U) (path : Str), (ctx.file_exists P path).run.Off π
  | .basic, _ => ToolM.off_read _
  | .stateless, _ => .ret
  | .user u, path => h.user_file_exists u path

theorem exec_argv : ∀ (ctx : Ctx U) (program : Str) (args : List Str),
    (ctx.exec_argv P program args).run.Off π
  | .basic, program, args => ToolM.off_lift (h.spawn program args)
  | .stateless, _, _ => .ret
  | .user u, program, args => h.user_exec_argv u program args

theorem fork (w : W) : ∀ ctx : Option (Ctx U), π (forkContext P ctx w).2 = π w
  | none | some .basic | some .stateless => rfl
  | some (.user u) => h.user_fork u w

theorem read_tool (ctx_ : Option (Ctx U)) : (ReadFileTool T P ctx_).Spares π := by
  intro call ctx
  show (ReadFileTool.invoke T P ctx_ call ctx).run.Off π
  unfold ReadFileTool.invoke
  split
  · exact .ret
  · refine ToolM.off_bind .ret fun path => ToolM.off_bind (h.read_file _ path) fun content => ?_
    have hfound : ∀ found : Bool, (if found then
        pure
          { output := .ofFields [("path", .string path), ("content", .string content)]
            observed_resources := [path] }
        else pure (.failed ("file not found: " ++ path)) : ToolM W ToolResult).run.Off π := by
      intro found
      split_ifs <;> exact .ret
    dsimp only
    split_ifs
    · exact ToolM.off_bind (h.file_exists _ path) hfound
    · exact ToolM.off_bind .ret hfound

theorem write_tool : (WriteFileTool T P).Spares π := by
  intro call ctx
  show (WriteFileTool.invoke T P call ctx).run.Off π
  unfold WriteFileTool.invoke
  split
  · exact .ret
  · refine ToolM.off_bind .ret fun path => ToolM.off_bind .ret fun content => ?_
    unfold WriteFileTool.store
    refine ToolM.off_bind (ToolM.off_lift (.step fun w => h.create_parent w path)) fun _ =>
      ToolM.off_bind (ToolM.off_lift (.step fun w => ?_)) fun opened => ?_
    · rcases hopen : P.open_trunc w path with _ | w'
      · rfl
      · exact h.open_trunc w path w' hopen
    · split_ifs
      · refine ToolM.off_bind (ToolM.off_lift (.step fun w => ?_)) fun written => ?_
        · rcases hwrite : P.write w path content with _ | w'
          · rfl
          · exact h.write w path content w' hwrite
        · split_ifs <;> exact .ret
      · exact .ret

theorem shell_tool (ctx_ : Option (Ctx U)) : (ShellTool T P ctx_).Spares π := by
  intro call ctx
  show (ShellTool.invoke T P ctx_ call ctx).run.Off π
  unfold ShellTool.invoke
  split
  · exact .ret
  · split
    · exact .ret
    · exact ToolM.off_bind (h.exec_argv _ _ _) fun output => .ret
  · exact .ret

end Platform.Spares

end Spares

/-! ## One batch -/

/-- Two registries that have been given the same remote tools, the first in the bigger world and
with other tools too, which leave the servers alone. -/
inductive Mirrors (T : JsonText) (Q : ℕ → JsonRpcTransport S) (library : Exn → Str) :
    ToolRegistry (McpWorld (S × F)) U → ToolRegistry (McpWorld S) U → Prop
  | empty : Mirrors T Q library {} {}
  | remote {registry : ToolRegistry (McpWorld (S × F)) U} {remote : ToolRegistry (McpWorld S) U}
    (h : Mirrors T Q library registry remote) (name : Str) (c : ℕ) (prefix_ : Str) :
    Mirrors T Q library
      (registry.register_tool
        (some (McpTool T (fun t => (Q t).beside) library name (some c) prefix_)))
      (remote.register_tool (some (McpTool T Q library name (some c) prefix_)))
  | other {registry : ToolRegistry (McpWorld (S × F)) U} {remote : ToolRegistry (McpWorld S) U}
    (h : Mirrors T Q library registry remote) {tool : Tool (McpWorld (S × F)) U}
    (hspares : tool.Spares McpWorld.servers) :
    Mirrors T Q library (registry.register_tool (some tool))
      ⟨remote.tools.erase tool.descriptor.name⟩

/-- The name leads to the same remote tool in both, or at most to a tool that leaves the servers
alone. -/
inductive Placed (T : JsonText) (Q : ℕ → JsonRpcTransport S) (library : Exn → Str)
    (registry : ToolRegistry (McpWorld (S × F)) U) (remote : ToolRegistry (McpWorld S) U)
    (name : Str) : Prop
  | remote {c : ℕ} {prefix_ : Str}
    (hfind : registry.find name
      = some (McpTool T (fun t => (Q t).beside) library name (some c) prefix_))
    (hremote : remote.find name = some (McpTool T Q library name (some c) prefix_))
  | other (hremote : remote.find name = none)
    (hspares : ∀ tool, registry.find name = some tool → tool.Spares McpWorld.servers)

theorem Placed.congr {registry registry' : ToolRegistry (McpWorld (S × F)) U}
    {remote remote' : ToolRegistry (McpWorld S) U} {name : Str}
    (h : Placed T Q library registry remote name) (hfind : registry'.find name = registry.find name)
    (hremote : remote'.find name = remote.find name) :
    Placed T Q library registry' remote' name := by
  cases h with
  | remote h h' => exact .remote (hfind.trans h) (hremote.trans h')
  | other h hspares => exact .other (hremote.trans h) (hfind ▸ hspares)

theorem Mirrors.placed {registry : ToolRegistry (McpWorld (S × F)) U}
    {remote : ToolRegistry (McpWorld S) U} (h : Mirrors T Q library registry remote) (name : Str) :
    Placed T Q library registry remote name := by
  induction h with
  | empty => exact .other rfl fun _ h => by cases h
  | remote _ name' c prefix_ ih =>
    by_cases he : name = name'
    · subst he
      exact .remote ((ToolRegistry.find_register ..).trans (if_pos rfl))
        ((ToolRegistry.find_register ..).trans (if_pos rfl))
    · exact ih.congr ((ToolRegistry.find_register ..).trans (if_neg he))
        ((ToolRegistry.find_register ..).trans (if_neg he))
  | @other registry remote _ tool hspares ih =>
    by_cases he : name = tool.descriptor.name
    · subst he
      refine .other (AList.lookup_erase _ _) fun tool' htool => ?_
      rw [ToolRegistry.find_register, if_pos rfl] at htool
      cases htool
      exact hspares
    · exact ih.congr ((ToolRegistry.find_register ..).trans (if_neg he)) (AList.lookup_erase_ne he)

section Batch

open McpWorld (servers)

variable {registry : ToolRegistry (McpWorld (S × F)) U} {remote : ToolRegistry (McpWorld S) U}
  {call : ToolCall} {ctx : Option (Ctx U)}

theorem on_invoke_one (h : Placed T Q library registry remote call.name)
    (hremote : (remote.find call.name).isSome) (ctx' : Option (Ctx U))
    (hctx : ctx'.isSome = ctx.isSome) :
    (invoke_one registry call ctx').run.On servers (invoke_one remote call ctx).run := by
  cases h with
  | remote hfind hfind' =>
    unfold invoke_one invokePath
    rw [hfind, hfind']
    cases ctx' with
    | none =>
      cases ctx with
      | none => exact .ret
      | some c => cases hctx
    | some c' =>
      cases ctx with
      | none => cases hctx
      | some c => exact ToolM.on_bind (McpTool.on_invoke call c') fun result => .ret
  | other hnone => simp [hnone] at hremote

theorem off_invoke_one (h : Placed T Q library registry remote call.name)
    (hremote : (remote.find call.name).isSome = false) (ctx : Option (Ctx U)) :
    (invoke_one registry call ctx).run.Off servers := by
  cases h with
  | remote _ hfind' => simp [hfind'] at hremote
  | other _ hspares =>
    unfold invoke_one invokePath
    cases hfind : registry.find call.name with
    | none => exact .ret
    | some tool =>
      cases ctx with
      | none => exact .ret
      | some c => exact ToolM.off_bind (hspares tool hfind call c) fun result => .ret

variable {calls : List ToolCall}

def isRemote (remote : ToolRegistry (McpWorld S) U) (calls : List ToolCall) (i : ℕ) : Bool :=
  (remote.find (calls.getD i {}).name).isSome

variable (hmirrors : Mirrors T Q library registry remote)
include hmirrors

theorem resourcesOf_remote {i : ℕ} (hremote : isRemote remote calls i) :
    resourcesOf registry (calls.getD i {}) = [lit "mcp"] := by
  unfold resourcesOf
  unfold isRemote at hremote
  cases hmirrors.placed (calls.getD i {}).name with
  | remote hfind =>
    rw [hfind]
    rfl
  | other hnone =>
    rw [hnone] at hremote
    cases hremote

/-- First fit puts each remote call into a later group than those before it. -/
theorem colour_remote : ∀ j < calls.length, ∀ i < j, isRemote remote calls i →
    isRemote remote calls j →
    FirstFit.colour (callGraph registry calls).Conflict i
      < FirstFit.colour (callGraph registry calls).Conflict j := by
  intro j hj i hij hi hremote
  have hin := hij.trans hj
  have hresources := resourcesOf_remote hmirrors hremote
  refine FirstFit.colour_lt_of_subset hij ?_ fun k hk hconflict => ?_
  · refine (callGraph_conflict_iff registry calls).2 ⟨hij.ne', hj, hin, lit "mcp", ?_, ?_⟩
    · rw [hresources]
      exact List.mem_singleton_self _
    · rw [resourcesOf_remote hmirrors hi]
      exact List.mem_singleton_self _
  · -- the earlier call claims nothing but the key that the later one claims too
    obtain ⟨-, -, hkn, key, hkey, hmem⟩ := (callGraph_conflict_iff registry calls).1 hconflict
    rw [resourcesOf_remote hmirrors hi] at hkey
    refine (callGraph_conflict_iff registry calls).2
      ⟨(hk.trans hij).ne', hj, hkn, key, ?_, hmem⟩
    rwa [hresources]

variable {platform : Platform (McpWorld (S × F)) U}
  (hfork : ∀ w, (forkContext platform ctx w).2.servers = w.servers)
include hfork

/-- What the groups that are run do to the servers. -/
theorem runGroups_remote (sched : Scheduler ℕ (McpWorld (S × F)) (Except Exn ToolExecutionRecord))
    {before after : List (List ℕ)}
    (hgroups : FirstFit.classes (callGraph registry calls).Conflict calls.length = before ++ after)
    (w : McpWorld (S × F)) :
    runOrder (fun i => (invoke_one remote (calls.getD i {}) ctx).run)
        (before.flatten.filter (isRemote remote calls)) w.servers
      = ((before.flatten.zip
          (sched.runGroups (launch platform registry calls ctx) before w).1).filter
            fun x => isRemote remote calls x.1,
        (sched.runGroups (launch platform registry calls ctx) before w).2.servers) := by
  have hmem : ∀ j ∈ before.flatten, j < calls.length := fun j hj => by
    refine FirstFit.mem_classes_flatten (R := (callGraph registry calls).Conflict).1 ?_
    rw [hgroups, List.flatten_append]
    exact List.mem_append_left _ hj
  have hsome : ∀ w, (forkContext platform ctx w).1.isSome = ctx.isSome := fun w => by
    cases ctx <;> rfl
  refine sched.runGroups_solo (fun _ w => hfork w) before w (fun j hj hremote w => ?_)
    (fun j hj hother w => ?_) fun g hg => ?_
  · exact on_invoke_one (hmirrors.placed _) hremote _ (hsome w)
  · exact off_invoke_one (hmirrors.placed _) hother _
  · refine FirstFit.countP_le_one (colour_remote hmirrors) ?_
    rw [hgroups]
    exact List.mem_append_left _ hg

variable (calls ctx platform) in
/-- On the servers, a batch under any scheduler is its remote calls one after the other, as far as
it comes. If it returns it has come to the end, with the records that the calls give this way. -/
theorem remote_calls_in_turn
    (sched : Scheduler ℕ (McpWorld (S × F)) (Except Exn ToolExecutionRecord)) (ex : ToolExecutor)
    (hparallel : ex.parallel_safe = true) (w : McpWorld (S × F)) :
    let run := ex.execute sched platform registry calls ctx w
    let alone := runOrder fun i => (invoke_one remote (calls.getD i {}) ctx).run
    ∃ taken left, (List.range calls.length).filter (isRemote remote calls) = taken ++ left
      ∧ run.2.2.servers = (alone taken w.servers).2
      ∧ ∀ records, run.1 = .ok records → left = []
        ∧ (alone taken w.servers).1
          = ((ToolExecutor.groupsOf registry calls ex).flatten.zip (records.map .ok)).filter
            fun x => isRemote remote calls x.1 := by
  intro run alone
  by_cases hnil : calls = []
  · subst hnil
    refine ⟨[], [], rfl, rfl, fun records hrecords => ⟨rfl, ?_⟩⟩
    cases hrecords
    simp [alone, runOrder]
  have hgroups : ToolExecutor.groupsOf registry calls ex
      = FirstFit.classes (callGraph registry calls).Conflict calls.length := by
    have hsize := callGraph_size registry calls
    have := executionGroups_eq (hsize ▸ List.length_pos_iff.2 hnil) ex.parallel_safe
    rwa [hsize, if_pos hparallel, DependencyGraph.schedule_eq_classes, hsize] at this
  -- a worker that throws leaves the groups after its own unrun, and none of its own
  have hrun : run = _ := ToolExecutor.runs_started sched platform registry calls ctx ex w
  have hstarted := ToolExecutor.started_of_isOk sched platform registry calls ctx
    (ToolExecutor.groupsOf registry calls ex) w
  obtain ⟨after, hsplit⟩ := ToolExecutor.started_prefix sched platform registry calls ctx
    (ToolExecutor.groupsOf registry calls ex) w
  generalize (ToolExecutor.started sched platform registry calls ctx
    (ToolExecutor.groupsOf registry calls ex) w).map Prod.fst = ran at hrun hsplit hstarted
  have halone := runGroups_remote hmirrors hfork sched (hgroups.symm.trans hsplit.symm) w
  refine ⟨ran.flatten.filter (isRemote remote calls),
    after.flatten.filter (isRemote remote calls), ?_, ?_, fun records hrecords => ?_⟩
  · rw [← FirstFit.flatten_filter_eq (colour_remote hmirrors), ← hgroups, ← hsplit,
      List.flatten_append, List.filter_append]
  · rw [hrun]
    exact (congrArg Prod.snd halone).symm
  · rw [hrun] at hrecords
    obtain ⟨outs, houts, hout, -⟩ := ToolExecutor.await_eq_ok (Prod.ext hrecords rfl)
    rw [List.nil_append] at hout
    subst hout
    obtain rfl := hstarted fun r hr => by
      rw [houts] at hr
      obtain ⟨record, -, rfl⟩ := List.mem_map.1 hr
      rfl
    refine ⟨by rw [List.append_right_eq_self.1 hsplit]; rfl,
      (congrArg Prod.fst halone).trans ?_⟩
    rw [houts]

end Batch

/-! ## Two remote calls and a write -/

/-- A machine whose files and processes have nothing to do with the servers. -/
def besideServers (P : Platform F Empty) : Platform (McpWorld (S × F)) Empty where
  read := fun w => P.read w.world.2
  file_exists := fun w => P.file_exists w.world.2
  entries_below := fun w => P.entries_below w.world.2
  last_write_time := fun w => P.last_write_time w.world.2
  file_size := fun w => P.file_size w.world.2
  create_parent := fun w path => { w with world := (w.world.1, P.create_parent w.world.2 path) }
  open_trunc := fun w path =>
    (P.open_trunc w.world.2 path).map fun files => { w with world := (w.world.1, files) }
  write := fun w path content =>
    (P.write w.world.2 path content).map fun files => { w with world := (w.world.1, files) }
  spawn := fun program args => zoom (fun w => w.world.2)
    (fun files w => { w with world := (w.world.1, files) }) (P.spawn program args)
  user_read_file := nofun
  user_file_exists := nofun
  user_exec_argv := nofun
  user_fork := nofun

theorem spares_besideServers (P : Platform F Empty) :
    (besideServers (S := S) P).Spares McpWorld.servers where
  create_parent := fun _ _ => rfl
  open_trunc := fun w path w' h => by
    obtain ⟨files, -, rfl⟩ := Option.map_eq_some_iff.1 h
    rfl
  write := fun w path content w' h => by
    obtain ⟨files, -, rfl⟩ := Option.map_eq_some_iff.1 h
    rfl
  spawn := fun program args => by
    refine keeps_zoom ?_ (P.spawn program args)
    exact fun _ _ => rfl
  user_read_file := nofun
  user_file_exists := nofun
  user_exec_argv := nofun
  user_fork := nofun

/-- What a server with the tools `b` and `c` says. -/
def twoTools : JsonText := .ofTable
  [("none", .object []),
    ("ask b", JsonRpcClient.requestJson 1 "tools/call"
      (.ofFields [("name", .string "b"), ("arguments", .object [])])),
    ("ask c", JsonRpcClient.requestJson 2 "tools/call"
      (.ofFields [("name", .string "c"), ("arguments", .object [])])),
    ("tell b", .ofFields [("id", .number_unsigned 1), ("result", .string "b")]),
    ("tell c", .ofFields [("id", .number_unsigned 2), ("result", .string "c")]),
    ("write", .ofFields [("path", .string "f"), ("content", .string "1")])]

def besideFiles : Platform (McpWorld ((ℕ → StreamTransport) × FlatFs)) Empty :=
  besideServers (flatPlatform fun _ _ => [])

def registerTwo (registry : ToolRegistry (McpWorld W) Empty) (P : ℕ → JsonRpcTransport W) :
    ToolRegistry (McpWorld W) Empty :=
  (registry.register_tool (some (McpTool twoTools P (fun _ => []) "b" (some 0) []))).register_tool
    (some (McpTool twoTools P (fun _ => []) "c" (some 0) []))

theorem mirrors_registerTwo :
    Mirrors (F := FlatFs) twoTools streamAt (fun _ => [])
      (registerTwo (register_builtin_tools twoTools besideFiles {} none)
        fun t => (streamAt t).beside)
      (registerTwo {} streamAt) := by
  have hspares := spares_besideServers (S := ℕ → StreamTransport) (flatPlatform fun _ _ => [])
  exact .remote (.remote (.other (.other (.other .empty (hspares.read_tool _)) hspares.write_tool)
    (hspares.shell_tool _)) _ _ _) _ _ _

/-- The server and an empty file system. -/
def twoToolsWorld : McpWorld ((ℕ → StreamTransport) × FlatFs) where
  world := (fun _ => { scripted := [lit "tell b", lit "tell c"] }, fun _ => none)
  clients := fun _ => { transport := 0 }
  next := 1

def askWriteAsk : List ToolCall :=
  [{ name := "b", arguments := "none" }, { name := "write_file", arguments := "write" },
    { name := "c", arguments := "none" }]

theorem remote_calls_in_turn_two :
    let registry := registerTwo (register_builtin_tools twoTools besideFiles {} none)
      fun t => (streamAt t).beside
    let run := ToolExecutor.execute .inOrder besideFiles registry {} askWriteAsk (some .basic)
      twoToolsWorld
    let alone := runOrder fun i =>
      (invoke_one (registerTwo {} streamAt) (askWriteAsk.getD i {}) (some .basic)).run
    ∃ taken left, [0, 2] = taken ++ left
      ∧ run.2.2.servers = (alone taken twoToolsWorld.servers).2
      ∧ ∀ records, run.1 = .ok records → left = []
        ∧ (alone taken twoToolsWorld.servers).1 = ([0, 1, 2].zip (records.map .ok)).filter
          fun x => isRemote (registerTwo {} streamAt) askWriteAsk x.1 :=
  remote_calls_in_turn (some .basic) askWriteAsk mirrors_registerTwo besideFiles
    (fun w => (spares_besideServers _).fork w _) .inOrder {} rfl twoToolsWorld

end Praxis
