import Praxis.Builtin
import Praxis.Proofs.Execution

/-!
# Which calls overlap

Two calls of a batch overlap if both workers are running in some state of a pool. In the groups of
`schedule` no two conflicting calls do. With `parallel_safe` off the whole batch is one group, and
its workers are launched like those of any other.
-/

namespace Praxis

open Interleave (Proc Pool Step Steps GroupRun)

variable {W U : Type}

/-- The states of the pools that the groups pass through, a group being started once the one before
has run to its end without an exception. -/
inductive Passes (spawn : ℕ → W → Proc W (Except Exn ToolExecutionRecord) × W) :
    List (List ℕ) → W → Pool ℕ W (Except Exn ToolExecutionRecord) → Prop
  | here {g groups w p} : Steps spawn (Pool.start w g) p → Passes spawn (g :: groups) w p
  | later {g groups w outs w' p} : GroupRun spawn g w outs w' → (∀ r ∈ outs, ∃ x, r = .ok x) →
    Passes spawn groups w' p → Passes spawn (g :: groups) w p

def running {R : Type} (p : Pool ℕ W R) : List ℕ := p.live.map Prod.fst

theorem Passes.running_subset {spawn : ℕ → W → Proc W (Except Exn ToolExecutionRecord) × W}
    {groups : List (List ℕ)} {w : W} {p : Pool ℕ W (Except Exn ToolExecutionRecord)}
    (h : Passes spawn groups w p) : ∃ g ∈ groups, running p ⊆ g := by
  induction h with
  | @here g groups w p hs =>
    refine ⟨g, List.mem_cons_self, fun i hi => (Interleave.members_steps hs).subset ?_⟩
    unfold Pool.members
    simp only [List.mem_append]
    exact .inl (.inr hi)
  | later _ _ _ ih =>
    obtain ⟨g, hg, hsub⟩ := ih
    exact ⟨g, List.mem_cons_of_mem _ hg, hsub⟩

/-- A group of two or more has its first two workers running at once, before either has done
anything. -/
theorem exists_running (spawn : ℕ → W → Proc W (Except Exn ToolExecutionRecord) × W) (i j : ℕ)
    (g : List ℕ) (groups : List (List ℕ)) (w : W) :
    ∃ p, Passes spawn ((i :: j :: g) :: groups) w p ∧ running p = [i, j] :=
  ⟨_, .here (.tail (.single .launch) .launch), rfl⟩

variable (P : Platform W U) (registry : ToolRegistry W U) (calls : List ToolCall)
  (ctx : Option (Ctx U))

/-- The states `execute` passes through with a batch. -/
abbrev Executing (parallel_safe : Bool) (w : W)
    (p : Pool ℕ W (Except Exn ToolExecutionRecord)) : Prop :=
  Passes (launch P registry calls ctx)
    (executionGroups parallel_safe (callGraph registry calls) calls.length) w p

/-- Two of the batch's calls claim a common key. -/
def Shares (i j : ℕ) : Prop :=
  ∃ key ∈ resourcesOf registry (calls.getD i {}), key ∈ resourcesOf registry (calls.getD j {})

theorem executing_mem {parallel_safe : Bool} {w : W}
    {p : Pool ℕ W (Except Exn ToolExecutionRecord)}
    (h : Executing P registry calls ctx parallel_safe w p) {i : ℕ} (hi : i ∈ running p) :
    i < calls.length := by
  obtain ⟨g, hg, hsub⟩ := h.running_subset
  have hperm := executionGroups_perm parallel_safe (callGraph registry calls)
  rw [callGraph_size] at hperm
  exact List.mem_range.1 (hperm.subset (List.mem_flatten.2 ⟨g, hg, hsub hi⟩))

/-- The groups of `schedule` keep calls with a common key apart. -/
theorem executing_parallel {w : W} {p : Pool ℕ W (Except Exn ToolExecutionRecord)}
    (h : Executing P registry calls ctx true w p) {i j : ℕ} (hi : i ∈ running p)
    (hj : j ∈ running p) (hij : i ≠ j) : ¬ Shares registry calls i j := by
  intro hshare
  have hin := executing_mem P registry calls ctx h hi
  have hjn := executing_mem P registry calls ctx h hj
  obtain ⟨g, hg, hsub⟩ := h.running_subset
  have hpos : 0 < (callGraph registry calls).size := by
    rw [callGraph_size]
    omega
  rw [← callGraph_size registry calls, executionGroups_eq hpos, if_pos rfl] at hg
  exact DependencyGraph.schedule_no_conflict hg (hsub hi) (hsub hj)
    ((callGraph_conflict_iff registry calls).2 ⟨hij, hin, hjn, hshare⟩)

/-- Conflicting calls never overlap, and no calls do with `parallel_safe` off, exactly when it is on
or the batch has no two calls. -/
theorem overlap_iff (parallel_safe : Bool) (w : W) :
    (∀ p, Executing P registry calls ctx parallel_safe w p →
        ∀ i ∈ running p, ∀ j ∈ running p, i ≠ j →
          ¬ Shares registry calls i j ∧ parallel_safe = true)
      ↔ parallel_safe = true ∨ calls.length ≤ 1 := by
  constructor
  · intro h
    by_contra hcon
    rw [not_or, Bool.not_eq_true, not_le] at hcon
    obtain ⟨rfl, hlen⟩ := hcon
    have hgroups : executionGroups false (callGraph registry calls) calls.length
        = [0 :: 1 :: (List.range (calls.length - 2)).map (· + 2)] := by
      obtain ⟨n, hn⟩ : ∃ n, calls.length = n + 2 := ⟨calls.length - 2, by omega⟩
      rw [hn]
      simp [executionGroups, List.range_succ_eq_map, Function.comp_def]
    obtain ⟨p, hp, hrun⟩ := exists_running (launch P registry calls ctx) 0 1
      ((List.range (calls.length - 2)).map (· + 2)) [] w
    have := (h p (by rwa [Executing, hgroups]) 0 (by simp [hrun]) 1 (by simp [hrun]) zero_ne_one).2
    exact Bool.false_ne_true this
  · rintro (rfl | hlen) p hp i hi j hj hij
    · exact ⟨executing_parallel P registry calls ctx hp hi hj hij, rfl⟩
    · have hi' := executing_mem P registry calls ctx hp hi
      have hj' := executing_mem P registry calls ctx hp hj
      omega

def twoWrites : List ToolCall :=
  [{ name := "write_file"
     arguments := "\x7b\"content\":\"1\",\"path\":\"f\"\x7d"
     ordinal := 0 },
    { name := "write_file"
      arguments := "\x7b\"content\":\"2\",\"path\":\"f\"\x7d"
      ordinal := 1 }]

/-- What the JSON library makes of their arguments. -/
def twoWritesText : JsonText :=
  .ofTable
    [("\x7b\"content\":\"1\",\"path\":\"f\"\x7d",
        .object [("content", .string "1"), ("path", .string "f")]),
      ("\x7b\"content\":\"2\",\"path\":\"f\"\x7d",
        .object [("content", .string "2"), ("path", .string "f")])]

/-- With `parallel_safe` off, the two writes run at once. -/
theorem writes_overlap :
    let registry := register_builtin_tools twoWritesText (flatPlatform fun _ _ => []) {} none
    ¬ ∀ p, Executing (flatPlatform fun _ _ => []) registry twoWrites (some .basic) false
        (fun _ => none) p →
      ∀ i ∈ running p, ∀ j ∈ running p, i ≠ j → ¬ Shares registry twoWrites i j := by
  intro registry h
  obtain ⟨p, hp, hrun⟩ := exists_running
    (launch (flatPlatform fun _ _ => []) registry twoWrites (some .basic)) 0 1 [] []
    (fun _ => none)
  refine h p hp 0 (by simp [hrun]) 1 (by simp [hrun]) zero_ne_one ?_
  exact ⟨"file:write:f", by decide, by decide⟩

end Praxis
