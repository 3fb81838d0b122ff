import Praxis.Proofs.Frame
import Praxis.Proofs.Splice

/-!
# Reads of files that have changed

A cached `read_file` depends on what the tool declares, `file:read`, and a changed path is
invalidated as `file:` before the path. These are the same dependency for the path `read` alone, so
the reads of a path that `diff` reports go on being answered unless `read` is itself reported
(`reads_forgotten_iff`).
-/

namespace Praxis

namespace Cache

variable {cache : Cache}

/-- The cache is one that calls on a new cache lead to. -/
def Reached (cache : Cache) : Prop := ∃ ops, cache = run ops

theorem Reached.step (h : cache.Reached) (op : Op) : (cache.step op).Reached := by
  obtain ⟨ops, rfl⟩ := h
  exact ⟨ops ++ [op], (run_snoc ops op).symm⟩

theorem Reached.foldl_invalidate :
    ∀ (names : List Str) {cache : Cache}, cache.Reached →
      (names.foldl invalidate_dependency cache).Reached
  | [], _, h => h
  | name :: names, _, h => Reached.foldl_invalidate names (h.step (.invalidate_dependency name))

/-- As long as it answers, an entry is as good as one that has just been put. -/
theorem Reached.entry {key : Str} {deps : List Str} (h : cache.Reached)
    (hanswer : (cache.answer key deps).isSome) :
    ∃ value entry, Entry cache key value deps true [] entry := by
  obtain ⟨value, hvalue⟩ := Option.isSome_iff_exists.1 hanswer
  obtain ⟨entry, hentry, hvalid, -⟩ := (answer_eq_some_iff _ _ _ _).1 hvalue
  obtain ⟨ops, rfl⟩ := h
  obtain ⟨put, current, cacheable, since, hl⟩ := exists_lastPut hentry
  obtain ⟨entry', he⟩ := entry_of_lastPut hl
  obtain rfl : entry' = entry := Option.some.inj (he.lookup.symm.trans hentry)
  obtain ⟨rfl, rfl, -⟩ := (he.is_valid_iff _).1 hvalid
  refine ⟨put, entry', { he with versions := fun d v hv => ?_ }⟩
  have hsame := ((is_valid_iff _ _ _).1 hvalid).2.2 d v hv
  simpa using hsame

theorem Entry.foldl_invalidate {key : Str} {value : Json} {deps : List Str} {cacheable : Bool}
    {entry : CacheEntry} :
    ∀ (names : List Str) {cache : Cache} {since : List Op},
      Entry cache key value deps cacheable since entry →
      Entry (names.foldl invalidate_dependency cache) key value deps cacheable
        (since ++ names.map .invalidate_dependency) entry
  | [], _, _, h => by simpa using h
  | name :: names, cache, since, h => by
    have hkeeps : (Op.invalidate_dependency name).Keeps key := trivial
    have hrest := Entry.foldl_invalidate names (h.step hkeeps)
    rwa [List.append_assoc] at hrest

/-- An answer outlasts invalidations exactly if they come back to each version it depends on. -/
theorem Reached.answer_invalidated_iff {key : Str} {deps : List Str} (h : cache.Reached)
    (names : List Str) (hanswer : (cache.answer key deps).isSome) :
    ((names.foldl invalidate_dependency cache).answer key deps).isSome
      ↔ ∀ d ∈ deps, 2 ^ 64 ∣ names.count d := by
  obtain ⟨value, entry, he⟩ := h.entry hanswer
  have hafter := he.foldl_invalidate names
  have hcount : ∀ d, (names.map Op.invalidate_dependency).count (Op.invalidate_dependency d)
      = names.count d := fun d =>
    List.count_map_of_injective names _ (fun _ _ h => Op.invalidate_dependency.inj h) d
  have hvalid := hafter.is_valid_iff deps
  simp only [List.nil_append, hcount, true_and] at hvalid
  rw [← hvalid, Option.isSome_iff_exists]
  constructor
  · rintro ⟨v, hv⟩
    obtain ⟨entry', hentry', hvalid', -⟩ := (answer_eq_some_iff _ _ _ _).1 hv
    obtain rfl : entry = entry' := Option.some.inj (hafter.lookup.symm.trans hentry')
    exact hvalid'
  · exact fun hv => ⟨_, (answer_eq_some_iff _ _ _ _).2 ⟨entry, hafter.lookup, hv, rfl⟩⟩

end Cache

namespace Orchestrator

open Effect (Prog Blocks Keeps)

variable {W U E α β : Type} {M : Machine W U} {task : Str} {budget : Budget}

/-- A `read_file` call for a path. -/
def Reads (T : JsonText) (path : Str) (call : ToolCall) : Prop :=
  call.name = "read_file"
    ∧ ∃ args, T.parse call.arguments = some args ∧ args.field? "path" = some (.string path)

/-- What `diff` reports at the end of a turn, if it does not throw. -/
def reported (M : Machine W U) (s : Sys W U E) : List Str :=
  match s.self.side_effects.diff M.platform s.world s.self.options.side_effect_root with
  | .ok changed => changed
  | .error _ => []

/-- The states before and after `apply_side_effects`, for each turn of a run at whose end it
returns. -/
def turnEnds (M : Machine W U) (task : Str) (budget : Budget) (s : Sys W U E) :
    List (Sys W U E × Sys W U E) :=
  (moves M task budget s).filterMap fun
    | ((.ok (.observing _), before), (.ok _, after)) => some (before, after)
    | _ => none

/-- The cached reads of the paths that are reported are not answered any more. -/
def Forgotten (M : Machine W U) (before after : Sys W U E) : Prop :=
  ∀ path ∈ reported M before, ∀ call, Reads M.text path call →
    (before.self.hit? call).isSome → after.self.hit? call = none

/-- If a read of a path that is reported is cached, then the path `read` is reported, and not just
a multiple of `2 ^ 64` times. -/
def ReadReported (M : Machine W U) (before : Sys W U E) : Prop :=
  ∀ path ∈ reported M before, ∀ call, Reads M.text path call →
    (before.self.hit? call).isSome → ¬ 2 ^ 64 ∣ (reported M before).count (lit "read")

/-- The program changes the cache by calls on it. -/
abbrev Cached (x : RunM W U E α) : Prop :=
  Keeps (fun s s' => s.self.cache.Reached → s'.self.cache.Reached) x

theorem reached_writes {k : Action} {s s' : Sys W U E} (h : Writes k s s')
    (hs : s.self.cache.Reached) : s'.self.cache.Reached := by
  cases h with
  | lookup _ key dependencies => exact hs.step (.get key dependencies)
  | cacheResult _ view output => exact hs.step (.put (cache_key view) output view.dependencies _)
  | invalidate _ changed =>
    have hafter := hs.foldl_invalidate (changed.map (lit "file:" ++ ·))
    rw [List.foldl_map] at hafter
    exact hafter
  | _ => exact hs

theorem cached_block (p : Point) : Cached (p.block M task budget : RunM W U E Point) :=
  (runs_block p).keepsWrites (R := fun s s' => s.self.cache.Reached → s'.self.cache.Reached)
    (fun _ h => h) (fun _ _ _ h h' hs => h' (h hs)) fun _ _ _ _ => reached_writes

/-- What is reported is recorded, if it is anything, and invalidated. -/
theorem exec_apply_side_effects {s s' : Sys W U E}
    (hroot : s.self.options.side_effect_root ≠ [])
    (h : (apply_side_effects M).exec s = (.ok (), s')) :
    s.self.side_effects.diff M.platform s.world s.self.options.side_effect_root
        = .ok (reported M s)
      ∧ (reported M s = [] ∧ s' = s
        ∨ ∃ s₁, (record .WorkingSetRendered
              [("side_effects", .array ((reported M s).map .string))]).exec s = (.ok (), s₁)
          ∧ s'.self = { s₁.self with
            cache := ((reported M s).map (lit "file:" ++ ·)).foldl Cache.invalidate_dependency
              s₁.self.cache }) := by
  have hon : ¬ s.self.options.side_effect_root.isEmpty := by simpa using hroot
  unfold apply_side_effects at h
  obtain ⟨changed, s₁, hdiff, hrest⟩ := Prog.exec_bind_eq_ok.1 h
  rw [Prog.exec_of] at hdiff
  dsimp only at hdiff
  rw [if_neg hon] at hdiff
  obtain ⟨hchanged, rfl⟩ := Prod.mk.inj hdiff
  obtain rfl : reported M s = changed := by rw [reported, hchanged]
  refine ⟨hchanged, ?_⟩
  split_ifs at hrest with hnone
  · cases hrest
    exact .inl ⟨List.isEmpty_iff.1 hnone, rfl⟩
  · obtain ⟨_, s₂, hrecord, hinvalidate⟩ := Prog.exec_bind_eq_ok.1 hrest
    cases hinvalidate
    refine .inr ⟨s₂, hrecord, ?_⟩
    rw [List.foldl_map]

theorem cache_apply_side_effects {s s' : Sys W U E}
    (hroot : s.self.options.side_effect_root ≠ [])
    (h : (apply_side_effects M).exec s = (.ok (), s')) :
    s'.self.cache
      = ((reported M s).map (lit "file:" ++ ·)).foldl Cache.invalidate_dependency s.self.cache := by
  rcases (exec_apply_side_effects hroot h).2 with ⟨hnone, rfl⟩ | ⟨s₁, hrecord, hself⟩
  · rw [hnone]
    rfl
  · rw [hself]
    obtain rfl : _ = s₁ := congrArg Prod.snd hrecord
    rfl

theorem hit?_read {self : Orchestrator W U E} {T : JsonText} {P : Platform W U} {path : Str}
    {call : ToolCall} (hcaching : self.options.cache_tools = true)
    (hfind : ∃ ctx, self.registry.find "read_file" = some (ReadFileTool T P ctx))
    (hcall : Reads T path call) :
    self.hit? call = self.cache.answer ("read_file" ++ "|" ++ call.arguments) ["file:read"] := by
  obtain ⟨ctx, hfind⟩ := hfind
  unfold hit? callView cache_key
  rw [if_pos hcaching, hcall.1, hfind]
  rfl

theorem count_file_read (changed : List Str) :
    (changed.map (lit "file:" ++ ·)).count (lit "file:read") = changed.count (lit "read") :=
  List.count_map_of_injective changed (lit "file:" ++ ·)
    (fun _ _ h => List.append_cancel_left h) (lit "read")

/-- Where a turn ends, the cached reads of the reported paths are forgotten exactly if there are
none of them or `read` is reported. -/
theorem forgotten_iff {l : Loop} {q : Point} {before after : Sys W U E}
    (hexec : ((Point.observing l).block M task budget).exec before = (.ok q, after))
    (hroot : before.self.options.side_effect_root ≠ [])
    (hcaching : before.self.options.cache_tools = true)
    (hfind : ∃ ctx,
      before.self.registry.find "read_file" = some (ReadFileTool M.text M.platform ctx))
    (hcache : before.self.cache.Reached) :
    Forgotten M before after ↔ ReadReported M before := by
  obtain ⟨_, s₁, happly, hrest⟩ := Prog.exec_bind_eq_ok.1 hexec
  cases hrest
  have hafter := cache_apply_side_effects hroot happly
  have hcore : core after = core before := by
    have hstill := still_apply_side_effects (M := M) before
    rwa [happly] at hstill
  have hcaching' : after.self.options.cache_tools = true := by
    rw [← hcaching]
    exact congrArg (fun c => c.options.cache_tools) hcore
  have hregistry : after.self.registry = before.self.registry := congrArg Core.registry hcore
  refine forall₂_congr fun path hpath => forall₃_congr fun call hcall hhit => ?_
  rw [hit?_read hcaching hfind hcall] at hhit
  have hiff := hcache.answer_invalidated_iff ((reported M before).map (lit "file:" ++ ·)) hhit
  rw [← hafter, List.forall_mem_singleton, count_file_read] at hiff
  rw [hit?_read hcaching' (hregistry ▸ hfind) hcall, ← hiff, Bool.not_eq_true,
    Option.isSome_eq_false_iff, Option.isNone_iff_eq_none]

/-- What a run keeps of the state it starts from. -/
structure Carried (s : Sys W U E) (c : Config W U E) : Prop where
  options : c.2.self.options = s.self.options
  registry : c.2.self.registry = s.self.registry
  cache : c.2.self.cache.Reached

theorem Carried.move {s s₁ : Sys W U E} {p : Point} {c : Config W U E}
    (h : Carried s (.ok p, s₁)) (hadvance : (control M task budget).advance (.ok p, s₁) = some c) :
    Carried s c := by
  have hexec := (exec_of_advance hadvance).2
  have hkept := (steady_block (f := fun c => (c.options, c.registry)) (fun _ _ => rfl)
    (fun _ _ _ => rfl) (fun _ _ => rfl) p).exec hexec
  obtain ⟨hoptions, hregistry⟩ := Prod.mk.inj hkept
  have hcached : Cached (p.block M task budget : RunM W U E Point) := cached_block p
  have hcache := hcached s₁ h.cache
  rw [hexec] at hcache
  exact ⟨hoptions.trans h.options, hregistry.trans h.registry, hcache⟩

/-- Over a run, the reads of the reported paths are forgotten at the end of every turn exactly if
at the end of every turn none of them is cached or `read` is itself reported. -/
theorem reads_forgotten_iff (M : Machine W U) (task : Str) (budget : Budget) (s : Sys W U E)
    (hroot : s.self.options.side_effect_root ≠ []) (hcaching : s.self.options.cache_tools = true)
    (hfind : ∃ ctx, s.self.registry.find "read_file" = some (ReadFileTool M.text M.platform ctx))
    (hcache : s.self.cache.Reached) :
    (∀ e ∈ turnEnds M task budget s, Forgotten M e.1 e.2)
      ↔ ∀ e ∈ turnEnds M task budget s, ReadReported M e.1 := by
  have hstep : ∀ c c' : Config W U E, Carried s c → (control M task budget).advance c = some c' →
      Carried s c' := fun c c' hc h => by
    obtain ⟨_ | p, s₁⟩ := c
    · cases h
    · exact hc.move h
  refine forall₂_congr fun e he => ?_
  obtain ⟨m, hm, hends⟩ := List.mem_filterMap.1 he
  obtain ⟨hbefore, -, hadvance⟩ := Blocks.mem_moves _ hstep ⟨rfl, rfl, hcache⟩ m hm
  split at hends
  · next l before q after =>
    cases hends
    exact forgotten_iff (exec_of_advance hadvance).2 (hbefore.options ▸ hroot)
      (hbefore.options ▸ hcaching) (hbefore.registry ▸ hfind) hbefore.cache
  · cases hends

/-! ## A file that is read and then written -/

def readTree : Str := "\x7b\"path\":\"ws/a\"\x7d"

def writeTree : Str := "\x7b\"content\":\"22\",\"path\":\"ws/a\"\x7d"

def readOther : Str := "\x7b\"path\":\"b\"\x7d"

/-- A flat file system with the directory `ws`, in which nothing but `ws/a` may stand. -/
def treeMachine : Machine FlatFs Empty where
  text := .ofTable
    [(readTree, .ofFields [("path", .string "ws/a")]),
      (writeTree, .ofFields [("path", .string "ws/a"), ("content", .string "22")]),
      ("\x7b\"content\":\"1\",\"path\":\"ws/a\"\x7d",
        .ofFields [("path", .string "ws/a"), ("content", .string "1")]),
      ("\x7b\"bytes\":2,\"path\":\"ws/a\"\x7d",
        .ofFields [("path", .string "ws/a"), ("bytes", .number_unsigned 2)]),
      (readOther, .ofFields [("path", .string "b")]),
      ("\x7b\"content\":\"1\",\"path\":\"b\"\x7d",
        .ofFields [("path", .string "b"), ("content", .string "1")])]
  platform :=
    { flatPlatform fun fs _ => if (fs "ws/a").isSome then ["ws/a"] else [] with
      file_exists := fun fs path => .ok (path == "ws" || (fs path).isSome) }
  scheduler := .inOrder

/-- The built-in tools, and `1` in the file. -/
def treeStart (script : List ModelResponse) : Sys FlatFs Empty (List ModelResponse) where
  self := (ofProvider scripted { side_effect_root := "ws" }).register_builtin treeMachine.text
    treeMachine.platform (some .basic)
  world := Function.update (fun _ => none) "ws/a" (some "1")
  env := script

theorem key_of_hit {self : Orchestrator W U E} {call : ToolCall}
    (h : (self.hit? call).isSome) :
    cache_key (callView self.registry call) ∈ self.cache.entries := by
  obtain ⟨value, hvalue⟩ := Option.isSome_iff_exists.1 h
  unfold hit? at hvalue
  dsimp only at hvalue
  split_ifs at hvalue
  obtain ⟨entry, hentry, -⟩ := (Cache.answer_eq_some_iff _ _ _ _).1 hvalue
  exact AList.lookup_isSome.1 (Option.isSome_of_eq_some hentry)

/-- A turn reads `b`, the next writes `ws/a`: the read of `b` is cached when the file is reported,
and none of `ws/a` is. -/
theorem reads_forgotten_written :
    let s := { treeStart [proposal "read_file" readOther, answer "CONFIRM",
        proposal "write_file" writeTree, answer "CONFIRM", answer "done"] with
      world := fun path => if path = "ws/a" ∨ path = "b" then some "1" else none }
    (∃ e ∈ turnEnds treeMachine "task" {} s, reported treeMachine e.1 = [lit "ws/a"]
        ∧ (e.1.self.hit? { name := "read_file", arguments := readOther }).isSome)
      ∧ ∀ e ∈ turnEnds treeMachine "task" {} s, Forgotten treeMachine e.1 e.2 := by
  intro s
  have hreported : ∀ e ∈ turnEnds treeMachine "task" {} s, ∀ path ∈ reported treeMachine e.1,
      path = "ws/a" := by decide +kernel
  have hkeys : ∀ e ∈ turnEnds treeMachine "task" {} s, ∀ key ∈ e.1.self.cache.entries.keys,
      (lit "read_file|").isPrefixOf key → key = "read_file|" ++ readOther := by decide +kernel
  have hother : (treeMachine.text.parse readOther).bind (·.field? "path") = some (.string "b") := by
    decide +kernel
  refine ⟨by decide +kernel, (reads_forgotten_iff treeMachine "task" {} s (by decide) rfl
    ⟨_, find_read_file _ _ _ _⟩ ⟨[], rfl⟩).2 fun e he path hpath call hcall hhit => ?_⟩
  obtain ⟨hname, args, hparse, hfield⟩ := hcall
  have hkey := hkeys e he _ (AList.mem_keys.1 (key_of_hit hhit))
  rw [cache_key, callView, hname] at hkey
  have hargs : call.arguments = readOther :=
    List.append_cancel_left (hkey (List.isPrefixOf_iff_prefix.2 ⟨_, rfl⟩))
  rw [← hargs, hparse, Option.bind_some, hfield, hreported e he path hpath] at hother
  exact absurd hother (by decide)

/-- The read of the first turn is still answered after the second has written the file. -/
theorem written_not_forgotten :
    let s := treeStart [proposal "read_file" readTree, answer "CONFIRM",
      proposal "write_file" writeTree, answer "CONFIRM", answer "done"]
    s.self.options.side_effect_root ≠ [] ∧ s.self.options.cache_tools = true
      ∧ (∃ ctx, s.self.registry.find "read_file"
          = some (ReadFileTool treeMachine.text treeMachine.platform ctx))
      ∧ s.self.cache.Reached
      ∧ ¬ ∀ e ∈ turnEnds treeMachine "task" {} s, Forgotten treeMachine e.1 e.2 := by
  intro s
  refine ⟨by decide, rfl, ⟨_, find_read_file _ _ _ _⟩, ⟨[], rfl⟩, fun h => ?_⟩
  let call : ToolCall := { name := "read_file", arguments := readTree }
  have hcall : Reads treeMachine.text "ws/a" call :=
    ⟨rfl, .ofFields [("path", .string "ws/a")], by decide, by decide⟩
  have hanswered : ∃ e ∈ turnEnds treeMachine "task" {} s, lit "ws/a" ∈ reported treeMachine e.1
      ∧ (e.1.self.hit? call).isSome ∧ e.2.self.hit? call ≠ none := by decide +kernel
  obtain ⟨e, he, hpath, hhit, hstill⟩ := hanswered
  exact hstill (h e he _ hpath call hcall hhit)

end Orchestrator

end Praxis
