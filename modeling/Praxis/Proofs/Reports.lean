import Praxis.Proofs.SideEffect
import Praxis.Proofs.Stale

/-!
# The side effects that a run reports

The observer is set once, where a run starts, so that the list recorded at the end of a turn is
what has changed since then and not since the turn before. The lists of the turns that execute tools
are exact if and only if every file that such a turn finds changed is changed again in it, and not
back (`reports_exact_iff`).
-/

namespace Praxis

namespace Orchestrator

open Effect (Prog Blocks Keeps)
open SideEffectObserver (snapshot diff walk stat tree Seen NoCollision SameStat)

variable {W U E : Type} {M : Machine W U} {task : Str} {budget : Budget}

/-- The `side_effects` lists recorded between two states. -/
def recordedPaths (before after : Sys W U E) : List Str :=
  (after.self.replay.events.drop before.self.replay.events.length).flatMap fun e =>
    match e.payload.field? "side_effects" with
    | some (.array paths) => paths.filterMap fun
      | .string path => some path
      | _ => none
    | _ => []

/-- The turn's calls are not all answered by the cache. -/
def executes (records : List ToolExecutionRecord) : Bool := records.any fun r => !r.from_cache

/-- The states before and after `apply_side_effects`, for each turn of a run that executes tools and
at whose end it returns. -/
def toolEnds (M : Machine W U) (task : Str) (budget : Budget) (s : Sys W U E) :
    List (Sys W U E × Sys W U E) :=
  ((moves M task budget s).zip (moves M task budget s).tail).filterMap fun
    | (((.ok (.called _ _ _ records), _), _), ((.ok (.observing _), before), (.ok _, after))) =>
      if executes records then some (before, after) else none
    | _ => none

/-- What the world is at the start of a run and at the end of each turn that executes tools. -/
def turnWorlds (M : Machine W U) (task : Str) (budget : Budget) (s : Sys W U E) : List W :=
  s.world :: (toolEnds M task budget s).map fun e => e.1.world

/-- The ends of the turns that execute tools, each with the world at the end of the one before, the
first with the world at the start. -/
def turnSpans (M : Machine W U) (task : Str) (budget : Budget) (s : Sys W U E) :
    List (W × Sys W U E × Sys W U E) :=
  (turnWorlds M task budget s).zip (toolEnds M task budget s)

theorem mem_moves_of_toolEnds {s before after : Sys W U E}
    (h : (before, after) ∈ toolEnds M task budget s) :
    ∃ l q, ((.ok (.observing l), before), (.ok q, after)) ∈ moves M task budget s := by
  obtain ⟨m, hm, hends⟩ := List.mem_filterMap.1 h
  have hending : m.2 ∈ moves M task budget s := List.mem_of_mem_tail (List.of_mem_zip hm).2
  split at hends
  · split_ifs at hends
    cases hends
    exact ⟨_, _, hending⟩
  · cases hends

theorem filterMap_string (changed : List Str) :
    (changed.map Json.string).filterMap (fun
      | .string path => some path
      | _ => none) = changed := by
  rw [List.filterMap_map]
  exact List.filterMap_some

theorem recordedPaths_eq {s s' : Sys W U E} (hroot : s.self.options.side_effect_root ≠ [])
    (h : (apply_side_effects M).exec s = (.ok (), s')) : recordedPaths s s' = reported M s := by
  rw [recordedPaths]
  rcases (exec_apply_side_effects hroot h).2 with ⟨hnone, rfl⟩ | ⟨s₁, hrecord, hself⟩
  · rw [hnone, List.drop_length]
    rfl
  · rw [hself]
    obtain rfl : _ = s₁ := congrArg Prod.snd hrecord
    have hevents (e : Event) : (s.self.replay.events ++ [e]).drop s.self.replay.events.length
        = [e] := List.drop_left
    refine (congrArg _ (hevents _)).trans ?_
    rw [List.flatMap_singleton]
    exact filterMap_string (reported M s)

/-- Only the start of a run sets the observer. -/
theorem observer_kept {p : Point} (hp : p ≠ .start) :
    Keeps (fun s s' => s'.self.side_effects = s.self.side_effects)
      (p.block M task budget : RunM W U E Point) := by
  refine (runs_block p).keepsWrites (R := fun s s' => s'.self.side_effects = s.self.side_effects)
    (fun _ => rfl) (fun _ _ _ h h' => h'.trans h) fun k hk s s' h => ?_
  cases h with
  | snapshot =>
    cases p with
    | start => exact absurd rfl hp
    | answered l chosen_tier response => cases response <;> simp at hk
    | _ => simp at hk
  | _ => rfl

theorem snapshot_of_start {s s' : Sys W U E} {q : Point}
    (hroot : s.self.options.side_effect_root ≠ [])
    (h : (Point.start.block M task budget).exec s = (.ok q, s')) :
    snapshot M.platform s.world s.self.options.side_effect_root = .ok s'.self.side_effects := by
  obtain ⟨_, s₁, hrecord, hrest⟩ := Prog.exec_bind_eq_ok.1 h
  obtain rfl : _ = s₁ := congrArg Prod.snd hrecord
  obtain ⟨_, s₂, hsnapshot, hpure⟩ := Prog.exec_bind_eq_ok.1 hrest
  cases hpure
  rw [take_snapshot, Prog.exec_of] at hsnapshot
  dsimp only at hsnapshot
  split_ifs at hsnapshot with hempty
  · exact absurd (List.isEmpty_iff.1 hempty) hroot
  · split at hsnapshot
    · cases hsnapshot
    · next side_effects heq =>
      cases hsnapshot
      exact heq

/-- Beyond its start, the observer of a run holds what was there at the start. -/
structure Watched (M : Machine W U) (s : Sys W U E) (c : Config W U E) : Prop where
  options : c.2.self.options = s.self.options
  world : c.1 = .ok .start → c.2.world = s.world
  observer : ∀ p, c.1 = .ok p → p ≠ .start →
    snapshot M.platform s.world s.self.options.side_effect_root = .ok c.2.self.side_effects

theorem Watched.move {s s₁ : Sys W U E} {p : Point} {c : Config W U E}
    (hroot : s.self.options.side_effect_root ≠ []) (h : Watched M s (.ok p, s₁))
    (hadvance : (control M task budget).advance (.ok p, s₁) = some c) : Watched M s c := by
  obtain ⟨hfinal, hexec⟩ := exec_of_advance hadvance
  have hoptions := (steady_block (f := Core.options) (fun _ _ => rfl) (fun _ _ _ => rfl)
    (fun _ _ => rfl) p).exec hexec
  refine ⟨hoptions.trans h.options, fun hstart => ?_, fun q hq hne => ?_⟩
  · obtain ⟨_, s₂⟩ := c
    cases hstart
    exact absurd (Point.next_block p hfinal s₁ _ s₂ hexec) nofun
  · obtain ⟨_, s₂⟩ := c
    cases hq
    by_cases hp : p = .start
    · subst hp
      have hopt : s₁.self.options = s.self.options := h.options
      rw [← hopt, ← h.world rfl]
      exact snapshot_of_start (by rwa [hopt]) hexec
    · have hkept := @observer_kept _ _ _ M task budget p hp s₁
      rw [hexec] at hkept
      rw [h.observer p rfl hp, ← hkept]

/-! ## The reports -/

section Reports

variable {P : Platform W U} {root : Str}

/-- The attributes of every regular file can be read. -/
def Stated (P : Platform W U) (w : W) (root : Str) : Prop :=
  ∀ path, tree P w root path ≠ none → (stat P w path).isSome

/-- Where the contents of a file differ, so do its attributes. -/
def Stamped (P : Platform W U) (w w' : W) (root : Str) : Prop :=
  ∀ path, SameStat P w w' root path → tree P w root path = tree P w' root path

/-- What differs between `start` and `before` is changed again by `after`, and not back. -/
def ChangedAgain (P : Platform W U) (root : Str) (start before after : W) : Prop :=
  ∀ path, tree P start root path ≠ tree P before root path →
    tree P after root path ≠ tree P before root path
      ∧ tree P after root path ≠ tree P start root path

theorem Stated.seen {w : W} {paths : List Str} (h : Stated P w root)
    (hwalk : walk P w root = .ok paths) : Seen P w root paths :=
  ⟨hwalk, fun path hpath => h path (by simp [tree, hwalk, hpath])⟩

/-- A list that tells what has changed since the start tells what has changed since another state
if and only if what has changed until then is changed again. -/
theorem since_iff {start before after : W} {changed : List Str}
    (hchanged : ∀ path, path ∈ changed ↔ tree P start root path ≠ tree P after root path) :
    (∀ path, path ∈ changed ↔ tree P before root path ≠ tree P after root path)
      ↔ ChangedAgain P root start before after := by
  refine forall_congr' fun path => ?_
  rw [hchanged]
  by_cases hsame : tree P start root path = tree P before root path
  · simp [hsame]
  · constructor
    · intro h _
      refine ⟨fun hback => ?_, fun hback => ?_⟩
      · exact h.1 (fun heq => hsame (heq.trans hback)) hback.symm
      · exact h.2 (fun heq => hsame (hback.symm.trans heq.symm)) hback.symm
    · intro h
      obtain ⟨hbefore, hstart⟩ := h hsame
      exact iff_of_true (Ne.symm hstart) (Ne.symm hbefore)

/-- What is recorded at the end of a turn is what has changed since the start of the run. -/
theorem mem_recordedPaths {s before after : Sys W U E} {l : Loop} {q : Point}
    (hroot : s.self.options.side_effect_root ≠ [])
    (hwatched : Watched M s (.ok (.observing l), before))
    (hexec : ((Point.observing l).block M task budget).exec before = (.ok q, after))
    (hstart : Stated M.platform s.world s.self.options.side_effect_root)
    (hend : Stated M.platform before.world s.self.options.side_effect_root)
    (hcollision :
      NoCollision M.platform s.world before.world s.self.options.side_effect_root)
    (hstamped : Stamped M.platform s.world before.world s.self.options.side_effect_root)
    (path : Str) :
    path ∈ recordedPaths before after
      ↔ tree M.platform s.world s.self.options.side_effect_root path
        ≠ tree M.platform before.world s.self.options.side_effect_root path := by
  obtain ⟨_, s₁, happly, hrest⟩ := Prog.exec_bind_eq_ok.1 hexec
  cases hrest
  have hoptions : before.self.options = s.self.options := hwatched.options
  have hsnapshot := hwatched.observer _ rfl nofun
  rw [recordedPaths_eq (hoptions ▸ hroot) happly, reported, hoptions]
  obtain ⟨paths, hwalk, hholds⟩ := SideEffectObserver.holds_of_snapshot hsnapshot
  have hdiff := (exec_apply_side_effects (hoptions ▸ hroot) happly).1
  rw [hoptions] at hdiff
  obtain ⟨paths', hwalk'⟩ := SideEffectObserver.walk_of_diff hdiff
  rw [hdiff, SideEffectObserver.mem_diff_iff hholds (hstart.seen hwalk) (hend.seen hwalk')
    hcollision hdiff path, and_iff_left_iff_imp]
  exact fun hdiffers hsame => hdiffers (hstamped path hsame)

/-- The lists of the turns that execute tools tell what has changed since the last such turn if and
only if every file that one of them finds changed is changed again in it, and not back. -/
theorem reports_exact_iff (M : Machine W U) (task : Str) (budget : Budget) (s : Sys W U E)
    (hroot : s.self.options.side_effect_root ≠ [])
    (hstated : ∀ w ∈ turnWorlds M task budget s,
      Stated M.platform w s.self.options.side_effect_root)
    (hcollision : ∀ w ∈ turnWorlds M task budget s, ∀ w' ∈ turnWorlds M task budget s,
      NoCollision M.platform w w' s.self.options.side_effect_root)
    (hstamped : ∀ w ∈ turnWorlds M task budget s, ∀ w' ∈ turnWorlds M task budget s,
      Stamped M.platform w w' s.self.options.side_effect_root) :
    (∀ t ∈ turnSpans M task budget s, ∀ path, path ∈ recordedPaths t.2.1 t.2.2
        ↔ tree M.platform t.1 s.self.options.side_effect_root path
          ≠ tree M.platform t.2.1.world s.self.options.side_effect_root path)
      ↔ ∀ t ∈ turnSpans M task budget s, ChangedAgain M.platform
        s.self.options.side_effect_root s.world t.1 t.2.1.world := by
  have hstep : ∀ c c' : Config W U E, Watched M s c → (control M task budget).advance c = some c' →
      Watched M s c' := fun c c' hc h => by
    obtain ⟨_ | p, s₁⟩ := c
    · cases h
    · exact hc.move hroot h
  have hfirst : Watched M s (.ok .start, s) :=
    ⟨rfl, fun _ => rfl, fun p hp hne => absurd (Except.ok.inj hp).symm hne⟩
  have hstart : s.world ∈ turnWorlds M task budget s := List.mem_cons_self
  refine forall₂_congr fun t ht => since_iff fun path => ?_
  obtain ⟨w, before, after⟩ := t
  have he : (before, after) ∈ toolEnds M task budget s := (List.of_mem_zip ht).2
  have hend : before.world ∈ turnWorlds M task budget s :=
    List.mem_cons_of_mem _ (List.mem_map_of_mem he)
  obtain ⟨l, q, hm⟩ := mem_moves_of_toolEnds he
  obtain ⟨hbefore, -, hadvance⟩ := Blocks.mem_moves _ hstep hfirst _ hm
  exact mem_recordedPaths hroot hbefore (exec_of_advance hadvance).2 (hstated _ hstart)
    (hstated _ hend) (hcollision _ hstart _ hend) (hstamped _ hstart _ hend) path

end Reports

/-! ## A file that is written in the first turn -/

section Written

variable {w : FlatFs} {ws : List FlatFs} {path : Str}

theorem walk_treeMachine (w : FlatFs) : walk treeMachine.platform w "ws"
    = .ok (if (w "ws/a").isSome then ["ws/a"] else []) := by
  rcases hw : w "ws/a" with _ | content <;> simp [walk, treeMachine, flatPlatform, hw] <;> rfl

/-- Nothing but `ws/a` stands below `ws`. -/
theorem tree_treeMachine (h : tree treeMachine.platform w "ws" path ≠ none) :
    path = "ws/a" ∧ ∃ content, w "ws/a" = some content
      ∧ tree treeMachine.platform w "ws" path = some (some content) := by
  unfold tree at h ⊢
  rw [walk_treeMachine] at h ⊢
  rcases hw : w "ws/a" with _ | content
  · simp [hw] at h
  · simp only [hw, Option.isSome_some, if_true, List.mem_singleton] at h ⊢
    split_ifs at h ⊢ with hpath
    · subst hpath
      exact ⟨rfl, content, rfl, congrArg some hw⟩
    · exact absurd rfl h

theorem stated_treeMachine (w : FlatFs) : Stated treeMachine.platform w "ws" := by
  intro path h
  obtain ⟨rfl, content, hw, -⟩ := tree_treeMachine h
  simp [stat, treeMachine, flatPlatform, hw]

/-- In these worlds the file has other attributes and another hash with every other content. -/
def KeptApart (ws : List FlatFs) : Prop :=
  ∀ w ∈ ws, ∀ w' ∈ ws, (w "ws/a").map fnv1a = ( w' "ws/a").map fnv1a
    ∨ stat treeMachine.platform w "ws/a" = stat treeMachine.platform w' "ws/a" →
    w "ws/a" = w' "ws/a"

instance (ws : List FlatFs) : Decidable (KeptApart ws) :=
  inferInstanceAs (Decidable (∀ w ∈ ws, ∀ w' ∈ ws, _))

theorem KeptApart.noCollision (h : KeptApart ws) : ∀ w ∈ ws, ∀ w' ∈ ws,
    NoCollision treeMachine.platform w w' "ws" := by
  intro w hw w' hw' path content content' htree htree' hhash
  obtain ⟨rfl, c, hc, hc'⟩ :=
    tree_treeMachine (show tree treeMachine.platform w "ws" path ≠ none by simp [htree])
  obtain ⟨-, d, hd, hd'⟩ :=
    tree_treeMachine (show tree treeMachine.platform w' "ws" "ws/a" ≠ none by simp [htree'])
  obtain rfl : c = content := Option.some.inj (Option.some.inj (hc'.symm.trans htree))
  obtain rfl : d = content' := Option.some.inj (Option.some.inj (hd'.symm.trans htree'))
  have hsame := h w hw w' hw' (.inl (by rw [hc, hd, Option.map_some, Option.map_some, hhash]))
  rw [hc, hd] at hsame
  exact Option.some.inj hsame

theorem KeptApart.stamped (h : KeptApart ws) : ∀ w ∈ ws, ∀ w' ∈ ws,
    Stamped treeMachine.platform w w' "ws" := by
  rintro w hw w' hw' path ⟨hpath, hpath', hstat⟩
  obtain ⟨rfl, c, hc, hc'⟩ := tree_treeMachine hpath
  obtain ⟨-, d, hd, hd'⟩ := tree_treeMachine hpath'
  rw [hc', hd', ← hc, ← hd, h w hw w' hw' (.inr hstat)]

/-- One turn that writes the file, and is reported, and one whose read a decision drops. -/
theorem reports_exact_once :
    let s := treeStart [proposal "write_file" writeTree, answer "CONFIRM",
      proposal "read_file" readTree, answer "OVERRIDE: stop", answer "done"]
    (turnEnds treeMachine "task" {} s).length = 2
      ∧ (∀ t ∈ turnSpans treeMachine "task" {} s, recordedPaths t.2.1 t.2.2 = [lit "ws/a"])
      ∧ ∀ t ∈ turnSpans treeMachine "task" {} s, ∀ path, path ∈ recordedPaths t.2.1 t.2.2
        ↔ tree treeMachine.platform t.1 "ws" path
          ≠ tree treeMachine.platform t.2.1.world "ws" path := by
  intro s
  have htold : KeptApart (turnWorlds treeMachine "task" {} s) := by decide +kernel
  have hone : (toolEnds treeMachine "task" {} s).length = 1 := by decide +kernel
  refine ⟨by decide +kernel, by decide +kernel, (reports_exact_iff treeMachine "task" {} s
    (by decide) (fun w _ => stated_treeMachine w) htold.noCollision htold.stamped).2
      fun t ht path hdiffers => ?_⟩
  obtain ⟨e, he⟩ := List.length_eq_one_iff.1 hone
  rw [turnSpans, turnWorlds, he] at ht
  obtain rfl := List.mem_singleton.1 ht
  exact absurd rfl hdiffers

/-- The read of the second turn changes nothing, and the file is reported again. -/
theorem reports_repeated :
    let s := treeStart [proposal "write_file" writeTree, answer "CONFIRM",
      proposal "read_file" readTree, answer "CONFIRM", answer "done"]
    s.self.options.side_effect_root = "ws"
      ∧ (∀ w ∈ turnWorlds treeMachine "task" {} s, Stated treeMachine.platform w "ws")
      ∧ (∀ w ∈ turnWorlds treeMachine "task" {} s, ∀ w' ∈ turnWorlds treeMachine "task" {} s,
        NoCollision treeMachine.platform w w' "ws")
      ∧ (∀ w ∈ turnWorlds treeMachine "task" {} s, ∀ w' ∈ turnWorlds treeMachine "task" {} s,
        Stamped treeMachine.platform w w' "ws")
      ∧ ¬ ∀ t ∈ turnSpans treeMachine "task" {} s, ∀ path, path ∈ recordedPaths t.2.1 t.2.2
        ↔ tree treeMachine.platform t.1 "ws" path
          ≠ tree treeMachine.platform t.2.1.world "ws" path := by
  intro s
  have htold : KeptApart (turnWorlds treeMachine "task" {} s) := by decide +kernel
  refine ⟨rfl, fun w _ => stated_treeMachine w, htold.noCollision, htold.stamped, fun h => ?_⟩
  have hagain : ∃ t ∈ turnSpans treeMachine "task" {} s, lit "ws/a" ∈ recordedPaths t.2.1 t.2.2
      ∧ tree treeMachine.platform t.1 "ws" "ws/a"
        = tree treeMachine.platform t.2.1.world "ws" "ws/a" := by decide +kernel
  obtain ⟨t, ht, hmem, hsame⟩ := hagain
  exact (h t ht _).1 hmem hsame

end Written

end Orchestrator

end Praxis
