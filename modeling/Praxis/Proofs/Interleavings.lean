import Praxis.Proofs.Actions
import Praxis.Proofs.Serial
import Praxis.Proofs.Splice

/-!
# A run does not depend on how its workers interleave

With the built-in tools on a flat file system, and as long as the model proposes file calls, runs
one after the other make the same moves under every scheduler (`session_any_scheduler`): the same
requests and events, the same results in the same places, and the same files.
-/

namespace Praxis

open Effect (Prog Blocks Keeps)
open Interleave (Scheduler)

/-! ## A batch -/

namespace ToolExecutor

variable {W U : Type}

theorem parallel_safe_await : ∀ (futures : List (Except Exn ToolExecutionRecord))
    (ex : ToolExecutor) (out : List ToolExecutionRecord),
    (await futures ex out).2.parallel_safe = ex.parallel_safe
  | [], _, _ => rfl
  | .error _ :: _, _, _ => rfl
  | .ok r :: futures, ex, out => parallel_safe_await futures (ex.count r) (out ++ [r])

theorem parallel_safe_executeGroups (sched : Scheduler ℕ W (Except Exn ToolExecutionRecord))
    (P : Platform W U) (registry : ToolRegistry W U) (calls : List ToolCall)
    (ctx : Option (Ctx U)) : ∀ (groups : List (List ℕ)) (ex : ToolExecutor) (w : W)
      (out : List ToolExecutionRecord),
      (executeGroups sched P registry calls ctx groups ex w out).2.1.parallel_safe
        = ex.parallel_safe
  | [], _, _, _ => rfl
  | group :: groups, ex, w, out => by
    unfold executeGroups
    dsimp only
    have hawait := parallel_safe_await
      (sched.runGroup (launch P registry calls ctx) group w).1 ex out
    revert hawait
    rcases await (sched.runGroup (launch P registry calls ctx) group w).1 ex out
      with ⟨e | out', ex'⟩
    · exact fun h => h
    · exact fun h => (parallel_safe_executeGroups sched P registry calls ctx groups ex' _ _).trans h

theorem parallel_safe_execute (sched : Scheduler ℕ W (Except Exn ToolExecutionRecord))
    (P : Platform W U) (registry : ToolRegistry W U) (ex : ToolExecutor) (calls : List ToolCall)
    (ctx : Option (Ctx U)) (w : W) :
    (execute sched P registry ex calls ctx w).2.1.parallel_safe = ex.parallel_safe := by
  unfold execute
  split_ifs
  · rfl
  · exact parallel_safe_executeGroups sched P registry calls ctx _ ex w []

theorem executeGroups_congr {sched sched' : Scheduler ℕ W (Except Exn ToolExecutionRecord)}
    {P : Platform W U} {registry : ToolRegistry W U} {calls : List ToolCall}
    {ctx : Option (Ctx U)} : ∀ {groups : List (List ℕ)},
    (∀ g ∈ groups, ∀ w, sched.runGroup (launch P registry calls ctx) g w
      = sched'.runGroup (launch P registry calls ctx) g w) →
    ∀ ex w out, executeGroups sched P registry calls ctx groups ex w out
      = executeGroups sched' P registry calls ctx groups ex w out
  | [], _, _, _, _ => rfl
  | g :: groups, h, ex, w, out => by
    obtain ⟨hg, hgroups⟩ := List.forall_mem_cons.1 h
    unfold executeGroups
    dsimp only
    rw [hg w]
    split
    · exact executeGroups_congr hgroups _ _ _
    · rfl

/-- A batch of file calls is executed alike under all schedulers. -/
theorem execute_scheduler {T : JsonText} {calls : List ToolCall} (below : FlatFs → Str → List Str)
    (base : ToolRegistry FlatFs Empty) (tools_ctx ctx : Option (Ctx Empty))
    (hcalls : ∀ call ∈ calls, ∃ op, IsFileOp T call op)
    (sched sched' : Scheduler ℕ FlatFs (Except Exn ToolExecutionRecord)) (ex : ToolExecutor)
    (hparallel : ex.parallel_safe = true) (fs : FlatFs) :
    execute sched (flatPlatform below) (flatRegistry T below base tools_ctx) ex calls ctx fs
      = execute sched' (flatPlatform below) (flatRegistry T below base tools_ctx) ex calls ctx
        fs := by
  unfold execute
  split_ifs with hempty
  · rfl
  have hexists : ∀ i, ∃ op, i < calls.length → IsFileOp T (calls.getD i {}) op := by
    intro i
    by_cases hi : i < calls.length
    · obtain ⟨op, hop⟩ := hcalls (calls.getD i {}) (by simp [hi])
      exact ⟨op, fun _ => hop⟩
    · exact ⟨.read [], fun h => absurd h hi⟩
  choose ops hops using hexists
  let graph := callGraph (flatRegistry T below base tools_ctx) calls
  have hperm : graph.schedule.flatten.Perm (List.range calls.length) := by
    have h := executionGroups_perm true graph
    rwa [executionGroups_eq (by
      rw [callGraph_size]
      exact List.length_pos_iff.2 fun h => hempty (by rw [h]; rfl)), if_pos rfl,
      callGraph_size] at h
  have hgroups : executionGroups ex.parallel_safe graph calls.length = graph.schedule := by
    rw [hparallel, ← callGraph_size (flatRegistry T below base tools_ctx) calls,
      executionGroups_eq (by
        rw [callGraph_size]
        exact List.length_pos_iff.2 fun h => hempty (by rw [h]; rfl)), if_pos rfl]
  dsimp only
  rw [hgroups]
  refine executeGroups_congr (fun g hg w => ?_) ex fs []
  have hlt : ∀ i ∈ g, i < calls.length := fun i hi =>
    List.mem_range.1 (hperm.subset (List.mem_flatten.2 ⟨g, hg, hi⟩))
  have hnd : g.Nodup :=
    (List.nodup_flatten.1 (hperm.nodup_iff.2 List.nodup_range)).1 g hg
  exact sched.runGroup_congr sched' hnd
    (fun i _ w => launch_flat below ctx calls (flatRegistry T below base tools_ctx) i w)
    (fun i hi => (hops i (hlt i hi)).within below base tools_ctx ctx)
    (fun i hi j hj hij l hl hl' => groups_apart below base tools_ctx hops hg hi hj hij
      ((Set.mem_singleton_iff.1 hl).symm.trans (Set.mem_singleton_iff.1 hl'))) w

end ToolExecutor

namespace Orchestrator

variable {E : Type}

/-- A flat file system and a way to interleave the workers. -/
def flatMachine (T : JsonText) (below : FlatFs → Str → List Str)
    (sched : Scheduler ℕ FlatFs (Except Exn ToolExecutionRecord)) : Machine FlatFs Empty where
  text := T
  platform := flatPlatform below
  scheduler := sched

variable {T : JsonText} {below : FlatFs → Str → List Str}
  (sched sched' : Scheduler ℕ FlatFs (Except Exn ToolExecutionRecord)) {task : Str}
  {budget : Budget}

/-! ## A run -/

/-- What decides on how a batch is run. -/
def batching (s : Sys FlatFs Empty E) : ToolRegistry FlatFs Empty × Bool :=
  (s.self.registry, s.self.executor.parallel_safe)

/-- Batches are run afterwards as they were before. -/
def SameBatching (s s' : Sys FlatFs Empty E) : Prop := batching s' = batching s

theorem SameBatching.refl (s : Sys FlatFs Empty E) : SameBatching s s := rfl

theorem SameBatching.trans (s s' s'' : Sys FlatFs Empty E) (h : SameBatching s s')
    (h' : SameBatching s' s'') : SameBatching s s'' :=
  Eq.trans h' h

variable {M : Machine FlatFs Empty}

theorem batching_does {k : Action} {α : Type} {x : RunM FlatFs Empty E α} (h : Does M k x) :
    Keeps SameBatching x := by
  intro s
  by_cases hk : k = .execute
  · subst hk
    cases h with
    | execute_pending pending =>
      unfold execute_pending
      split_ifs
      · exact .refl s
      · exact congrArg (s.self.registry, ·) (ToolExecutor.parallel_safe_execute _ _ _ _ _ _ _)
  · have hwrites := h.writes s
    revert hwrites
    generalize (x.exec s).2 = s'
    intro hwrites
    cases hwrites with
    | execute => exact absurd rfl hk
    | _ => exact .refl s

theorem batching_block (p : Point) :
    Keeps SameBatching (p.block M task budget : RunM FlatFs Empty E Point) :=
  (runs_block p).keeps SameBatching.refl SameBatching.trans fun _ _ _ _ => batching_does

theorem batching_run : Keeps SameBatching (run M task budget : RunM FlatFs Empty E _) :=
  keeps_run SameBatching.refl SameBatching.trans fun _ _ _ => batching_does

/-- The built-in tools are registered, and batches run in groups. -/
structure Batches (T : JsonText) (below : FlatFs → Str → List Str) (s : Sys FlatFs Empty E) :
    Prop where
  registry : ∃ base tools_ctx, s.self.registry = flatRegistry T below base tools_ctx
  parallel : s.self.executor.parallel_safe = true

theorem Batches.of_batching {s s' : Sys FlatFs Empty E} (h : Batches T below s)
    (hsame : SameBatching s s') : Batches T below s' := by
  obtain ⟨hregistry, hparallel⟩ := Prod.mk.inj hsame
  exact ⟨hregistry ▸ h.registry, hparallel.trans h.parallel⟩

/-- The calls are well-formed file calls. -/
def FileCalls (T : JsonText) (calls : List ToolCall) : Prop :=
  ∀ call ∈ calls, ∃ op, IsFileOp T call op

theorem execute_pending_scheduler {s : Sys FlatFs Empty E} (h : Batches T below s)
    {pending : List ToolCall} (hpending : FileCalls T pending) :
    (execute_pending (flatMachine T below sched) pending).exec s
      = (execute_pending (flatMachine T below sched') pending).exec s := by
  obtain ⟨base, tools_ctx, hregistry⟩ := h.registry
  unfold execute_pending
  split_ifs
  · rfl
  · rw [Prog.exec_of, Prog.exec_of]
    dsimp only [flatMachine]
    rw [hregistry, ToolExecutor.execute_scheduler below base tools_ctx s.self.tool_ctx hpending
      sched sched' s.self.executor h.parallel s.world]

theorem run_calls_scheduler {s : Sys FlatFs Empty E} (h : Batches T below s)
    {calls : List ToolCall} (hcalls : FileCalls T calls) :
    (run_calls (flatMachine T below sched) calls
        (build_call_views s.self.registry calls)).exec s
      = (run_calls (flatMachine T below sched') calls
        (build_call_views s.self.registry calls)).exec s := by
  unfold run_calls
  rw [Prog.exec_bind, Prog.exec_bind]
  rcases hlookup : (lookup_calls 0 (calls.zip (build_call_views s.self.registry calls))).exec s
    with ⟨e | found, s₁⟩
  · rfl
  · obtain ⟨rfl, hl⟩ := lookup_calls_eq_ok rfl hlookup
    have hsame : SameBatching s s₁ := by
      unfold SameBatching batching
      rw [hl.registry, hl.executor]
    have hmisses : FileCalls T (s.self.misses calls) :=
      fun call hcall => hcalls call (List.mem_of_mem_filter hcall)
    dsimp only
    rw [Prog.exec_bind, Prog.exec_bind,
      execute_pending_scheduler sched sched' (h.of_batching hsame) hmisses]

theorem record_results_scheduler (chosen_tier : Tier) (views : List CallView) :
    ∀ (records : List ToolExecutionRecord) (turn_ctx : TurnContext) (messages : Messages),
      (record_results (flatMachine T below sched) chosen_tier views records turn_ctx messages
          : RunM FlatFs Empty E _)
        = record_results (flatMachine T below sched') chosen_tier views records turn_ctx messages
  | [], _, _ => rfl
  | rec :: records, turn_ctx, messages => by
    rw [record_results_cons, record_results_cons]
    exact bind_congr fun told =>
      record_results_scheduler chosen_tier views records _ (messages ++ [told.2])

/-- The calls that a point is about to run. -/
def Point.toRun : Point → List ToolCall
  | .calling _ _ calls => calls
  | _ => []

theorem block_scheduler {s : Sys FlatFs Empty E} (h : Batches T below s) (p : Point)
    (hcalls : FileCalls T p.toRun) :
    (p.block (flatMachine T below sched) task budget).exec s
      = (p.block (flatMachine T below sched') task budget).exec s := by
  cases p with
  | calling l chosen_tier calls =>
    unfold Point.block
    rw [Prog.exec_bind, Prog.exec_bind, Prog.exec_step]
    dsimp only
    rw [Prog.exec_bind, Prog.exec_bind]
    have hrecord := batching_does (M := flatMachine T below sched) (.record .WorkingSetRendered
      [("tokens", .number_unsigned
        (s.self.context.render_working_set { goal := task }).token_count)]) s
    revert hrecord
    rcases (record .WorkingSetRendered [(lit "tokens", .number_unsigned
      (s.self.context.render_working_set { goal := task }).token_count)]).exec s
      with ⟨e | _, s₁⟩
    · exact fun _ => rfl
    · intro hrecord
      have hrun := run_calls_scheduler sched sched' (h.of_batching hrecord) hcalls
      dsimp only [Point.toRun] at hrun ⊢
      rw [Prog.exec_bind, Prog.exec_bind, Prog.exec_step]
      dsimp only
      rw [Prog.exec_bind, Prog.exec_bind, hrun]
  | answered l chosen_tier response => cases response <;> rfl
  | reviewed l chosen_tier calls decision_tier response => cases response <;> rfl
  | called l chosen_tier views records =>
    show (record_results (flatMachine T below sched) chosen_tier views records { goal := task }
      l.messages >>= _).exec s = (record_results (flatMachine T below sched') chosen_tier views
      records { goal := task } l.messages >>= _).exec s
    rw [record_results_scheduler sched sched']
  | _ => rfl

/-- What is proposed in these moves is file calls. -/
def ProposesOnly (T : JsonText)
    (ms : List (Config FlatFs Empty E × Config FlatFs Empty E)) : Prop :=
  ∀ m ∈ ms, ∀ p, m.1.1 = .ok p → FileCalls T p.toRun

theorem moves_any_scheduler {s : Sys FlatFs Empty E} (h : Batches T below s)
    (hfiles : ProposesOnly T (moves (flatMachine T below sched) task budget s)) :
    moves (flatMachine T below sched') task budget s
      = moves (flatMachine T below sched) task budget s := by
  refine Blocks.moves_congr _ (fun _ => rfl) fun m hm => ?_
  obtain ⟨hbatches, -, hadvance⟩ := Blocks.mem_moves
    (control (flatMachine T below sched) task budget) (I := fun c => Batches T below c.2)
    (fun c c' hc hmove => by
      obtain ⟨_ | p, s₁⟩ := c
      · cases hmove
      · obtain ⟨-, rfl⟩ := exec_of_advance hmove
        exact hc.of_batching (batching_block p s₁))
    h m hm
  obtain ⟨⟨_ | p, s₁⟩, c'⟩ := m
  · cases hadvance
  · obtain ⟨hfinal, hexec⟩ := exec_of_advance hadvance
    rw [hadvance, Blocks.advance_ok _ s₁ (show (control _ task budget).final p = false from hfinal)]
    exact congrArg some ((block_scheduler sched' sched hbatches p
      (hfiles _ hm p rfl)).trans hexec)

theorem run_any_scheduler {s : Sys FlatFs Empty E} (h : Batches T below s)
    (hfiles : ProposesOnly T (moves (flatMachine T below sched) task budget s)) :
    (run (flatMachine T below sched') task budget).exec s
      = (run (flatMachine T below sched) task budget).exec s := by
  have hend := outcome_start (flatMachine T below sched) task budget s
  have hend' := outcome_start (flatMachine T below sched') task budget s
  have hmoves := moves_any_scheduler sched sched' h hfiles
  rw [Blocks.outcome, show (control _ task budget).moves _ = _ from hmoves] at hend'
  have hsame := hend'.symm.trans hend
  revert hsame
  rcases (run (flatMachine T below sched) task budget).exec s with ⟨e | r, s₁⟩ <;>
    rcases (run (flatMachine T below sched') task budget).exec s with ⟨e' | r', s₁'⟩ <;>
    intro hsame <;> cases hsame <;> rfl

/-- With the built-in tools on a flat file system, and in runs that propose only file calls, it
makes no difference how the workers of a group are interleaved. -/
theorem session_any_scheduler : ∀ (runs : List (Str × Budget)) (s : Sys FlatFs Empty E),
    Batches T below s → ProposesOnly T (sessionMoves (flatMachine T below sched) runs s) →
    sessionMoves (flatMachine T below sched') runs s
      = sessionMoves (flatMachine T below sched) runs s
  | [], _, _, _ => rfl
  | (task, budget) :: runs, s, h, hfiles => by
    have hfirst : ProposesOnly T (moves (flatMachine T below sched) task budget s) :=
      fun m hm => hfiles m (List.mem_append_left _ hm)
    unfold sessionMoves
    rw [moves_any_scheduler sched sched' h hfirst, run_any_scheduler sched sched' h hfirst,
      session_any_scheduler runs _ (h.of_batching (batching_run s))
        fun m hm => hfiles m (List.mem_append_right _ hm)]

/-- Proposes a write of the file `f` and a read of it in one batch, and is done. -/
def proposeWriteThenRead : List ModelResponse :=
  [{ outcome := { plan := "go on", has_tool_use := true, tool_count := 2 }
     raw := .ofFields [("tool_calls", .array (writeThenRead.map fun call =>
       .ofFields [("name", .string call.name), ("arguments", .string call.arguments)]))] },
    answer "CONFIRM", answer "done"]

theorem writeThenRead_any_scheduler :
    let start := scriptedStart {} proposeWriteThenRead
    let s : Sys FlatFs Empty (List ModelResponse) :=
      { start with
        self := { start.self with
          registry := flatRegistry writeThenReadText (fun _ _ => []) {} none } }
    ∃ ms, (ms.filter fun m => m.1.1.toOption.any (·.toRun == writeThenRead)).length = 1
      ∧ ∀ sched', sessionMoves (flatMachine writeThenReadText (fun _ _ => []) sched')
        [("task", {})] s = ms := by
  intro start s
  let ms := sessionMoves (flatMachine writeThenReadText (fun _ _ => []) .inOrder) [("task", {})] s
  have hruns : ∀ m ∈ ms, ∀ p ∈ m.1.1.toOption, ∀ call ∈ p.toRun, call ∈ writeThenRead := by
    decide +kernel
  refine ⟨ms, by decide +kernel, fun sched' => session_any_scheduler .inOrder sched' _ s
    ⟨⟨{}, none, rfl⟩, rfl⟩ fun m hm p hp call hcall => ?_⟩
  have hmem := hruns m hm p (by rw [hp]; rfl) call hcall
  simp only [writeThenRead, List.mem_cons, List.not_mem_nil, or_false] at hmem
  rcases hmem with rfl | rfl
  · exact ⟨.write "f" "1", .write rfl rfl rfl (by decide) rfl⟩
  · exact ⟨.read "f", .read rfl rfl rfl (by decide)⟩

end Orchestrator

end Praxis
