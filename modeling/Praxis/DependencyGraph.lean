import Praxis.Types
import Mathlib.Data.List.Sort

/-!
# The dependency graph

The calls of a batch with the resources each claims, and the grouping of the calls by first fit.
`SIZE_MAX` in the assignment, a call not placed yet, is `none`. The map from resources to their
owners is written by `add_call` and never read, so it is left out.
-/

namespace Praxis

structure DependencyGraph where
  calls : List ToolCall := []
  resources : List (List Str) := []
  sizes : resources.length = calls.length := by rfl

namespace DependencyGraph

def add_call (G : DependencyGraph) (call : ToolCall) (resources : List Str) : DependencyGraph where
  calls := G.calls ++ [call]
  resources := G.resources ++ [resources]
  sizes := by simp [G.sizes]

/-- The graph a sequence of `add_call` builds. -/
def ofCalls (claims : List (ToolCall × List Str)) : DependencyGraph :=
  claims.foldl (fun G c => G.add_call c.1 c.2) {}

def size (G : DependencyGraph) : ℕ := G.calls.length

def resources_at (G : DependencyGraph) (i : ℕ) : List Str := G.resources.getD i []

def has_conflict (G : DependencyGraph) (a b : ℕ) : Bool :=
  if a = b ∨ G.size ≤ a ∨ G.size ≤ b then false
  else (G.resources_at a).any fun r => (G.resources_at b).any fun r2 => r == r2

/-- The order of vectors by which `weakly_connected_components` sorts. -/
def vectorLe : List ℕ → List ℕ → Bool
  | [], _ => true
  | _ :: _, [] => false
  | a :: as, b :: bs => a < b || (a == b && vectorLe as bs)

/-- `visited` and `q` of `weakly_connected_components`. -/
structure SearchState where
  visited : List Bool
  q : List ℕ

/-- The body of the loop over the calls: call `i` is queued when it conflicts with `v`. -/
def visitCall (G : DependencyGraph) (v : ℕ) (st : SearchState) (i : ℕ) : SearchState :=
  if !st.visited.getD i false && G.has_conflict v i then
    { visited := st.visited.set i true, q := st.q ++ [i] }
  else st

/-- The `while (!q.empty())` loop, cut off after `fuel` rounds: `visited` and `comp` at its end. -/
def componentLoop (G : DependencyGraph) :
    ℕ → SearchState → List ℕ → Option (List Bool × List ℕ)
  | 0, st, comp => if st.q.isEmpty then some (st.visited, comp) else none
  | fuel + 1, st, comp =>
    match st.q with
    | [] => some (st.visited, comp)
    | v :: q =>
      G.componentLoop fuel ((List.range G.size).foldl (G.visitCall v) { st with q := q })
        (comp ++ [v])

/-- The body of the loop over the seeds. -/
def componentSeed (G : DependencyGraph) (fuel : ℕ) (st : List Bool × List (List ℕ)) (seed : ℕ) :
    Option (List Bool × List (List ℕ)) :=
  if st.1.getD seed false then some st
  else
    (G.componentLoop fuel { visited := st.1.set seed true, q := [seed] } []).map
      fun (visited, comp) => (visited, st.2 ++ [comp.insertionSort (· ≤ ·)])

/-- `weakly_connected_components` with each search cut off after `fuel` rounds. -/
def componentsFuel (G : DependencyGraph) (fuel : ℕ) : Option (List (List ℕ)) :=
  ((List.range G.size).foldlM (G.componentSeed fuel) (List.replicate G.size false, [])).map
    fun st => st.2.insertionSort fun C D => vectorLe C D = true

/-- `weakly_connected_components`; every search ends within its fuel (`componentsFuel_eq`). -/
def weakly_connected_components (G : DependencyGraph) : List (List ℕ) :=
  (G.componentsFuel G.size).getD []

/-- The variables of `schedule`. -/
structure ScheduleState where
  assignment : List (Option ℕ)
  groups : List (List ℕ)
  next_group : ℕ
  progress : Bool

/-- The body of the loop over the calls: the first group without a conflict takes the call. -/
def scheduleCall (G : DependencyGraph) (st : ScheduleState) (i : ℕ) : ScheduleState :=
  if (st.assignment.getD i none).isSome then st
  else
    match (List.range st.next_group).find? fun g =>
        (st.groups.getD g []).all fun j => !G.has_conflict i j with
    | some g =>
      { st with
        assignment := st.assignment.set i (some g)
        groups := st.groups.modify g (· ++ [i]) }
    | none =>
      { assignment := st.assignment.set i (some st.next_group)
        groups := st.groups ++ [[i]]
        next_group := st.next_group + 1
        progress := true }

/-- `progress = false`. -/
def ScheduleState.restart (st : ScheduleState) : ScheduleState := { st with progress := false }

/-- One round of the `while (progress)` loop. -/
def schedulePass (G : DependencyGraph) (st : ScheduleState) : ScheduleState :=
  (List.range G.size).foldl G.scheduleCall st.restart

/-- The `while (progress)` loop, cut off after `fuel` rounds. -/
def scheduleLoop (G : DependencyGraph) : ℕ → ScheduleState → Option ScheduleState
  | 0, st => if st.progress then none else some st
  | fuel + 1, st => if st.progress then G.scheduleLoop fuel (G.schedulePass st) else some st

def scheduleStart (G : DependencyGraph) : ScheduleState where
  assignment := List.replicate G.size none
  groups := []
  next_group := 0
  progress := true

/-- `schedule` with the loop cut off after `fuel` rounds. -/
def scheduleFuel (G : DependencyGraph) (fuel : ℕ) : Option (List (List ℕ)) :=
  if G.calls.isEmpty then some []
  else (G.scheduleLoop fuel G.scheduleStart).map fun st =>
    st.groups.map (List.insertionSort (· ≤ ·))

/-- `schedule`; the loop ends within its fuel (`scheduleFuel_eq`). -/
def schedule (G : DependencyGraph) : List (List ℕ) := (G.scheduleFuel (G.size + 1)).getD []

end DependencyGraph

end Praxis
