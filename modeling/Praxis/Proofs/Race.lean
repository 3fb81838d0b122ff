import Praxis.Proofs.Stale
import Praxis.Race

/-!
# Results that an invalidation has overtaken

A put notes the versions of the dependencies as they are then. If one of them has been invalidated
since the result was computed, the invalidation is lost: the cache returns the result from the put
on. If none has, it never does after an invalidation, unless a version of 64 bits comes round.
-/

namespace Praxis

open Orchestrator

namespace Race

variable {W U E : Type} {r r' : Race W U E}

/-- Whatever a lookup would return was computed after the last invalidation of what it depends
on. -/
def Fresh (r : Race W U E) : Prop :=
  ∀ call output, r.self.hit? call = some output →
    ∀ d ∈ (callView r.self.registry call).dependencies,
      r.computed (cache_key (callView r.self.registry call)) d = r.invalidations d

/-- Since an entry was put, the versions that it depends on have come round to where they were. -/
def Wrapped (r : Race W U E) : Prop :=
  ∃ key entry, r.self.cache.entries.lookup key = some entry
    ∧ (∀ d ∈ entry.dependencies, 2 ^ 64 ∣ r.invalidations d - r.stored key d)
    ∧ ∃ d ∈ entry.dependencies, r.invalidations d ≠ r.stored key d

theorem cache_result_of_stored {self : Orchestrator W U E} {views : List CallView}
    {rec : ToolExecutionRecord} {view : CallView} (h : storedView self views rec = some view) :
    self.options.cache_tools = true ∧ cache_result views rec self =
      { self with
        cache := self.cache.put (cache_key view) rec.result.output view.dependencies true } := by
  unfold storedView at h
  split_ifs at h with hok
  have hcaching : self.options.cache_tools = true := by simp at hok; exact hok.2
  unfold cache_result
  rw [if_pos hok, h, hcaching]
  exact ⟨rfl, rfl⟩

theorem cache_result_of_not_stored {self : Orchestrator W U E} {views : List CallView}
    {rec : ToolExecutionRecord} (h : storedView self views rec = none) :
    cache_result views rec self = self := by
  unfold storedView at h
  unfold cache_result
  split_ifs at h ⊢ with hok
  · rw [h]
  · rfl

theorem cache_result_registry (views : List CallView) (rec : ToolExecutionRecord)
    (self : Orchestrator W U E) : (cache_result views rec self).registry = self.registry := by
  cases h : storedView self views rec with
  | none => rw [cache_result_of_not_stored h]
  | some view => rw [(cache_result_of_stored h).2]

theorem storedView_mem {self : Orchestrator W U E} {batch : List ToolCall}
    {rec : ToolExecutionRecord} {view : CallView}
    (h : storedView self (build_call_views self.registry batch) rec = some view) :
    ∃ call, view = callView self.registry call := by
  unfold storedView at h
  split_ifs at h
  obtain ⟨call, -, rfl⟩ := List.mem_map.1 (List.mem_of_find?_eq_some h)
  exact ⟨call, rfl⟩

/-- The entry was put for a call, and computed with the counts it was put with. -/
structure Kept (r : Race W U E) (key : Str) (entry : CacheEntry) : Prop where
  caching : r.self.options.cache_tools = true
  view : ∃ call, key = cache_key (callView r.self.registry call)
    ∧ entry.dependencies = (callView r.self.registry call).dependencies
  seen : ∀ d ∈ entry.dependencies, r.computed key d = r.stored key d
  since : ∃ since, Cache.Entry r.self.cache key entry.value entry.dependencies true since entry
    ∧ ∀ d, r.invalidations d = r.stored key d + since.count (.invalidate_dependency d)

def Timely (r : Race W U E) : Prop :=
  ∀ key entry, r.self.cache.entries.lookup key = some entry → r.Kept key entry

/-- The part of a state that an entry goes by is kept, and the cache does one operation that leaves
the entry in place. -/
theorem Kept.step {key : Str} {entry : CacheEntry} (h : r.Kept key entry) {op : Cache.Op}
    (hop : op.Keeps key) {cache : Cache} (hcache : cache = r.self.cache.step op)
    {calls : ℕ → Progress} {invalidations : Counts} {computed stored : Str → Counts}
    (hcomputed : computed key = r.computed key) (hstored : stored key = r.stored key)
    (hcount : ∀ d, invalidations d
      = r.invalidations d + [op].count (.invalidate_dependency d)) :
    Kept ⟨{ r.self with cache := cache }, calls, invalidations, computed, stored⟩ key entry := by
  obtain ⟨since, hentry, hsince⟩ := h.since
  refine ⟨h.caching, h.view, fun d hd => ?_, since ++ [op], hcache ▸ hentry.step hop, fun d => ?_⟩
  · show computed key d = stored key d
    rw [hcomputed, hstored, h.seen d hd]
  · show invalidations d = stored key d + _
    rw [hcount, hsince, hstored, List.count_append, Nat.add_assoc]

/-- A get changes neither the entries nor the versions. -/
theorem Timely.lookup (h : r.Timely) (i : ℕ) (call : ToolCall) : (r.lookup i call).Timely := by
  intro key entry hlookup
  have hentries : r.self.cache.entries.lookup key = some entry := by
    rw [← hlookup]
    exact congrArg _ (Cache.get_entries _ _ _).symm
  have hkeeps : (Cache.Op.get (cache_key (callView r.self.registry call))
      (callView r.self.registry call).dependencies).Keeps key := trivial
  exact (h key entry hentries).step hkeeps rfl rfl rfl fun d => by simp

theorem Timely.execute (h : r.Timely) (i : ℕ) (result : ToolResult) :
    (r.execute i result).Timely := by
  unfold Race.execute
  split
  · exact fun key entry hlookup => ⟨(h key entry hlookup).caching, (h key entry hlookup).view,
      (h key entry hlookup).seen, (h key entry hlookup).since⟩
  · exact h

theorem Timely.invalidate (h : r.Timely) (dep : Str) : (r.invalidate dep).Timely := by
  intro key entry hlookup
  have hkeeps : (Cache.Op.invalidate_dependency dep).Keeps key := trivial
  refine (h key entry hlookup).step hkeeps rfl rfl rfl fun d => ?_
  by_cases hd : d = dep
  · subst hd
    simp
  · simp [hd, Ne.symm hd]

/-- A put that no invalidation has overtaken leaves only such entries. -/
theorem Timely.store (h : r.Timely) {i : ℕ} {batch : List ToolCall}
    (hpunctual : r.overtaken (.store i batch) = []) : (r.store i batch).Timely := by
  simp only [overtaken] at hpunctual
  unfold Race.store
  cases hcall : r.calls i with
  | idle | missed => exact h
  | held rec seen =>
    rw [hcall] at hpunctual
    dsimp only at hpunctual ⊢
    cases hview : storedView r.self (build_call_views r.self.registry batch) rec with
    | none =>
      rw [cache_result_of_not_stored hview]
      exact fun key entry hlookup => ⟨(h key entry hlookup).caching, (h key entry hlookup).view,
        (h key entry hlookup).seen, (h key entry hlookup).since⟩
    | some view =>
      rw [hview] at hpunctual
      obtain ⟨hcaching, hself⟩ := cache_result_of_stored hview
      obtain ⟨call, rfl⟩ := storedView_mem hview
      rw [hself]
      intro key entry hlookup
      by_cases hkey : key = cache_key (callView r.self.registry call)
      · subst hkey
        obtain ⟨entry', hentry'⟩ := Cache.entry_put r.self.cache
          (cache_key (callView r.self.registry call)) rec.result.output
          (callView r.self.registry call).dependencies true
        obtain rfl : entry' = entry := Option.some.inj (hentry'.lookup.symm.trans hlookup)
        refine ⟨hcaching, ⟨call, rfl, hentry'.dependencies_eq⟩, fun d hd => ?_, [], ?_, fun d => ?_⟩
        · rw [hentry'.dependencies_eq] at hd
          have hseen := List.filter_eq_nil_iff.1 hpunctual d hd
          simpa using hseen
        · rw [hentry'.value_eq, hentry'.dependencies_eq]
          exact hentry'
        · simp
      · have hold : r.self.cache.entries.lookup key = some entry :=
          (AList.lookup_insert_ne hkey).symm.trans hlookup
        have hkeeps : (Cache.Op.put (cache_key (callView r.self.registry call)) rec.result.output
            (callView r.self.registry call).dependencies true).Keeps key := Ne.symm hkey
        exact (h key entry hold).step hkeeps rfl (Function.update_of_ne hkey _ _)
          (Function.update_of_ne hkey _ _) fun d => by simp

theorem Timely.step (h : r.Timely) {a : RaceStep} (hpunctual : r.overtaken a = []) :
    (r.step a).Timely := by
  cases a with
  | lookup i call => exact h.lookup i call
  | execute i result => exact h.execute i result
  | store i batch => exact h.store hpunctual
  | invalidate_cache_dependency dep => exact h.invalidate dep

theorem Timely.fresh_iff (h : r.Timely) : r.Fresh ↔ ¬ r.Wrapped := by
  constructor
  · rintro hfresh ⟨key, entry, hlookup, hround, d, hd, hne⟩
    have hkept := h key entry hlookup
    obtain ⟨call, rfl, hdeps⟩ := hkept.view
    obtain ⟨since, hentry, hsince⟩ := hkept.since
    have hhit : r.self.hit? call = some entry.value := by
      unfold hit?
      dsimp only
      rw [if_pos hkept.caching]
      refine (Cache.answer_eq_some_iff _ _ _ _).2 ⟨entry, hlookup, ?_, rfl⟩
      refine (hentry.is_valid_iff _).2 ⟨rfl, hdeps.symm, fun d hd => ?_⟩
      have hd := hround d hd
      rwa [hsince d, Nat.add_sub_cancel_left] at hd
    have hsame := hfresh call _ hhit d (hdeps ▸ hd)
    rw [hkept.seen d hd] at hsame
    exact hne hsame.symm
  · intro hround call output hhit d hd
    unfold hit? at hhit
    dsimp only at hhit
    split_ifs at hhit
    obtain ⟨entry, hlookup, hvalid, -⟩ := (Cache.answer_eq_some_iff _ _ _ _).1 hhit
    have hkept := h _ entry hlookup
    obtain ⟨since, hentry, hsince⟩ := hkept.since
    obtain ⟨-, hdeps, hcount⟩ := (hentry.is_valid_iff _).1 hvalid
    rw [hdeps] at hd
    rw [hkept.seen d hd]
    by_contra hne
    refine hround ⟨_, entry, hlookup, fun d hd => ?_, d, hd, Ne.symm hne⟩
    rw [hsince d, Nat.add_sub_cancel_left]
    exact hcount d hd

/-- A put that an invalidation has overtaken leaves a result that a lookup returns after it. -/
theorem not_fresh_of_overtaken {a : RaceStep} (h : r.overtaken a ≠ []) : ¬ (r.step a).Fresh := by
  intro hfresh
  cases a with
  | lookup | execute | invalidate_cache_dependency => exact h rfl
  | store i batch =>
    simp only [overtaken] at h
    simp only [Race.step, Race.store] at hfresh
    cases hcall : r.calls i with
    | idle | missed =>
      rw [hcall] at h
      exact h rfl
    | held rec seen =>
      rw [hcall] at h hfresh
      dsimp only at h hfresh
      cases hview : storedView r.self (build_call_views r.self.registry batch) rec with
      | none =>
        rw [hview] at h
        exact h rfl
      | some view =>
        rw [hview] at h hfresh
        obtain ⟨d, hd⟩ := List.exists_mem_of_ne_nil _ h
        obtain ⟨hd, hne⟩ := List.mem_filter.1 hd
        obtain ⟨hcaching, hself⟩ := cache_result_of_stored hview
        obtain ⟨call, rfl⟩ := storedView_mem hview
        rw [hself] at hfresh
        have hhit : Orchestrator.hit? { r.self with
            cache := r.self.cache.put (cache_key (callView r.self.registry call)) rec.result.output
              (callView r.self.registry call).dependencies true } call
            = some rec.result.output := by
          unfold hit?
          dsimp only
          rw [if_pos hcaching]
          exact Cache.answer_put_self _ _ _ _
        have hsame := hfresh call _ hhit d hd
        dsimp only at hsame
        rw [Function.update_self] at hsame
        simp [hsame] at hne

theorem run_snoc (r : Race W U E) (steps : List RaceStep) (a : RaceStep) :
    r.run (steps ++ [a]) = (r.run steps).step a := by
  simp [run, List.foldl_append]

/-- In a run in which no put is overtaken, every entry is as it was computed. -/
theorem timely_run {steps : List RaceStep} (hnew : r.self.cache.entries = ∅)
    (hpunctual : ∀ before a, before ++ [a] <+: steps → (r.run before).overtaken a = []) :
    ∀ {before : List RaceStep}, before <+: steps → (r.run before).Timely := by
  intro before
  induction before using List.reverseRecOn with
  | nil =>
    intro _ key entry hlookup
    rw [run, List.foldl_nil, hnew] at hlookup
    cases hlookup
  | append_singleton before a ih =>
    intro h
    rw [run_snoc]
    exact (ih ((List.prefix_append _ _).trans h)).step (hpunctual before a h)

/-- At every point of a run, whatever a lookup would return was computed after the last
invalidation of what it depends on, if and only if no put of the run is overtaken by an
invalidation and no version comes round. -/
theorem never_stale_iff (r : Race W U E) (hnew : r.self.cache.entries = ∅)
    (steps : List RaceStep) :
    (∀ before, before <+: steps → (r.run before).Fresh)
      ↔ (∀ before a, before ++ [a] <+: steps → (r.run before).overtaken a = [])
        ∧ ∀ before, before <+: steps → ¬ (r.run before).Wrapped := by
  constructor
  · intro hfresh
    have hpunctual : ∀ before a, before ++ [a] <+: steps → (r.run before).overtaken a = [] := by
      intro before a h
      by_contra hne
      have hstale := hfresh _ h
      rw [run_snoc] at hstale
      exact not_fresh_of_overtaken hne hstale
    exact ⟨hpunctual, fun before h => (timely_run hnew hpunctual h).fresh_iff.1 (hfresh before h)⟩
  · rintro ⟨hpunctual, hround⟩ before h
    exact (timely_run hnew hpunctual h).fresh_iff.2 (hround before h)

/-- The state has the cache of the system, and the tools and options that a call is seen by. -/
structure Shares (r : Race W U E) (s : Sys W U E) : Prop where
  cache : r.self.cache = s.self.cache
  registry : r.self.registry = s.self.registry
  options : r.self.options = s.self.options

variable {M : Machine W U} {s s' : Sys W U E}

/-- What does not use the cache keeps what the state has of the system. -/
theorem Shares.after {α : Type} {S : List Action} {x : RunM W U E α} (hx : Runs M S x)
    (hS : .lookup ∉ S ∧ .cacheResult ∉ S ∧ .invalidate ∉ S) {out : Except Exn α}
    (h : r.Shares s) (hexec : x.exec s = (out, s')) : r.Shares s' := by
  have hkeeps : Effect.Keeps (fun s s' => r.Shares s → r.Shares s') x := by
    refine hx.keepsWrites (R := fun s s' => r.Shares s → r.Shares s') (fun _ h => h)
      (fun _ _ _ h h' hs => h' (h hs)) fun k hk s s' hw hs => ?_
    cases hw with
    | lookup => exact absurd hk hS.1
    | cacheResult => exact absurd hk hS.2.1
    | invalidate => exact absurd hk hS.2.2
    | _ => exact ⟨hs.cache, hs.registry, hs.options⟩
  have hkept := hkeeps s h
  rwa [hexec] at hkept

theorem Shares.lookup (M : Machine W U) (h : r.Shares s) (i : ℕ) {call : ToolCall}
    {cached : Option Json}
    (hexec : (lookup_call (callView s.self.registry call)).exec s = (.ok cached, s')) :
    (r.lookup i call).Shares s' := by
  obtain ⟨found, s₁, h₁, hrest⟩ := Effect.Prog.exec_bind_eq_ok.1 hexec
  cases h₁
  have hlooked : (r.lookup i call).Shares
      { s with self := { s.self with
        cache := (s.self.cache.get (cache_key (callView s.self.registry call))
          (callView s.self.registry call).dependencies).2 } } := by
    refine ⟨?_, h.registry, h.options⟩
    simp only [Race.lookup, h.registry, h.cache]
  refine hlooked.after (M := M) (S := [.telemetry, .record]) ?_ (by decide) hrest
  refine .bind (runs_action (by simp) (.record_cache_hit _)) fun _ => ?_
  split
  · exact .bind (runs_record (by simp)) fun _ => .pure _
  · exact .pure _

/-- The lookup loop of a turn is a run of lookups, one for each call. -/
theorem Shares.lookup_calls (M : Machine W U) {registry : ToolRegistry W U} :
    ∀ {calls : List ToolCall} {i : ℕ} {r : Race W U E} {s s' : Sys W U E}
      {found : List ToolCall × List (ℕ × Json)}, r.Shares s → s.self.registry = registry →
      (Orchestrator.lookup_calls i (calls.zip (build_call_views registry calls))).exec s
        = (.ok found, s') →
      (r.run ((calls.zipIdx i).map fun ci => .lookup ci.2 ci.1)).Shares s'
  | [], i, r, s, s', found, h, _, hexec => by
    cases hexec
    exact h
  | call :: calls, i, r, s, s', found, h, rfl, hexec => by
    obtain ⟨cached, s₁, rest, h₁, h₂, -⟩ := lookup_calls_cons_eq_ok hexec
    have hrest := Shares.lookup_calls M (h.lookup M i h₁) (lookup_call_eq_ok h₁).2.registry h₂
    exact hrest

theorem store_self {i : ℕ} {batch : List ToolCall} {rec : ToolExecutionRecord} {seen : Counts}
    (h : r.calls i = .held rec seen) :
    (r.store i batch).self
        = cache_result (build_call_views r.self.registry batch) rec r.self
      ∧ (r.store i batch).calls = Function.update r.calls i .idle := by
  simp only [Race.store, h]
  split <;> exact ⟨rfl, rfl⟩

/-- What storing a record does to the cache is up to the cache and the options. -/
theorem Shares.cache_result (h : r.Shares s) (views : List CallView) (rec : ToolExecutionRecord) :
    Shares { r with self := Orchestrator.cache_result views rec r.self }
      { s with self := Orchestrator.cache_result views rec s.self } := by
  have hview : storedView r.self views rec = storedView s.self views rec := by
    simp only [storedView, h.options]
  cases hstored : storedView s.self views rec with
  | none =>
    rw [cache_result_of_not_stored hstored, cache_result_of_not_stored (hview.trans hstored)]
    exact h
  | some view =>
    rw [(cache_result_of_stored hstored).2, (cache_result_of_stored (hview.trans hstored)).2]
    exact ⟨by rw [h.cache], h.registry, h.options⟩

theorem Shares.store (h : r.Shares s) {i : ℕ} {rec : ToolExecutionRecord} {seen : Counts}
    (hcall : r.calls i = .held rec seen) (batch : List ToolCall) {chosen_tier : Tier}
    {out : Str × Message} (hexec : (record_result M chosen_tier
      (build_call_views r.self.registry batch) rec).exec s = (.ok out, s')) :
    (r.store i batch).Shares s' := by
  have hquiet : ∀ {α : Type} {x : RunM W U E α} {r : Race W U E} {s s' : Sys W U E}
      {out : Except Exn α}, Runs M [.record, .telemetry, .cascade, .store] x → r.Shares s →
      x.exec s = (out, s') → r.Shares s' := fun hx h => h.after hx (by decide)
  obtain ⟨_, s₁, h₁, hrest₁⟩ := Effect.Prog.exec_bind_eq_ok.1 hexec
  have hs₁ := hquiet (runs_action (by simp) (.record_tool_call _)) h h₁
  obtain ⟨_, s₂, h₂, hrest₂⟩ := Effect.Prog.exec_bind_eq_ok.1 hrest₁
  have hs₂ := hquiet (runs_record (by simp)) hs₁ h₂
  obtain ⟨_, s₃, h₃, hrest₃⟩ := Effect.Prog.exec_bind_eq_ok.1 hrest₂
  have hs₃ : r.Shares s₃ := by
    refine hquiet ?_ hs₂ h₃
    cases rec.result.ok with
    | true => exact .look _
    | false => exact runs_cascade (by simp) fun cascade => cascade.record_failure chosen_tier
  obtain ⟨_, s₄, h₄, hrest₄⟩ := Effect.Prog.exec_bind_eq_ok.1 hrest₃
  have hs₄ : (r.store i batch).Shares s₄ := by
    rw [exec_modifySelf] at h₄
    obtain rfl := (Prod.mk.inj h₄).2
    have hshares := hs₃.cache_result (build_call_views r.self.registry batch) rec
    rw [← (store_self hcall).1] at hshares
    exact ⟨hshares.cache, hshares.registry, hshares.options⟩
  exact hquiet (.bind (.ofExcept _) fun body =>
    .bind (runs_action (by simp) (.store_result body)) fun _ => .pure _) hs₄ hrest₄

/-- Going over the records of a turn is a run of stores, one for each record. -/
theorem Shares.record_results {registry : ToolRegistry W U} {batch : List ToolCall}
    {chosen_tier : Tier} :
    ∀ {records : List ToolExecutionRecord} {i : ℕ} {r : Race W U E} {s s' : Sys W U E}
      {turn_ctx : TurnContext} {messages : Messages} {out : TurnContext × Messages},
      r.Shares s → r.self.registry = registry →
      (∀ k rec, records[k]? = some rec → ∃ seen, r.calls (i + k) = .held rec seen) →
      (Orchestrator.record_results M chosen_tier (build_call_views registry batch) records
        turn_ctx messages).exec s = (.ok out, s') →
      (r.run ((List.range' i records.length).map fun k => .store k batch)).Shares s'
  | [], i, r, s, s', turn_ctx, messages, out, h, _, _, hexec => by
    cases hexec
    exact h
  | rec :: records, i, r, s, s', turn_ctx, messages, out, h, rfl, hheld, hexec => by
    unfold Orchestrator.record_results at hexec
    obtain ⟨_, s₁, h₁, hrest⟩ := Effect.Prog.exec_bind_eq_ok.1 hexec
    obtain ⟨seen, hcall⟩ := hheld 0 rec rfl
    rw [Nat.add_zero] at hcall
    obtain ⟨hself, hcalls⟩ : (r.store i batch).self = _ ∧ (r.store i batch).calls = _ :=
      store_self hcall
    have hregistry : (r.store i batch).self.registry = r.self.registry := by
      rw [hself, cache_result_registry]
    refine Shares.record_results (i := i + 1) (h.store hcall batch h₁) hregistry
      (fun k rec' hk => ?_) hrest
    obtain ⟨seen', hcall'⟩ := hheld (k + 1) rec' hk
    refine ⟨seen', ?_⟩
    show (r.store i batch).calls (i + 1 + k) = _
    rw [hcalls, Function.update_of_ne (by omega), ← hcall', Nat.add_assoc, Nat.add_comm 1 k]

/-! ## A file that is read while it changes -/

def readCall : ToolCall := { name := "read_file", arguments := readTree }

/-- The built-in tools, and nothing under way. -/
def treeRace : Race FlatFs Empty (List ModelResponse) where
  self := (treeStart []).self

/-- A read, an invalidation and another read. -/
theorem never_stale_reread :
    let steps := [.lookup 0 readCall, .execute 0 { output := .string "1" }, .store 0 [readCall],
      .invalidate_cache_dependency "file:read", .lookup 1 readCall,
      .execute 1 { output := .string "2" }, .store 1 [readCall]]
    (treeRace.run steps).self.hit? readCall = some (.string "2")
      ∧ ∀ before, before <+: steps → (treeRace.run before).Fresh := by
  intro steps
  have hpunctual : ∀ p ∈ steps.inits, ∀ a ∈ p.getLast?,
      (treeRace.run p.dropLast).overtaken a = [] := by decide +kernel
  have hround : ∀ p ∈ steps.inits, ∀ e ∈ (treeRace.run p).self.cache.entries.entries,
      ∀ d ∈ e.2.dependencies,
        2 ^ 64 ∣ (treeRace.run p).invalidations d - (treeRace.run p).stored e.1 d →
        (treeRace.run p).invalidations d = (treeRace.run p).stored e.1 d := by decide +kernel
  refine ⟨by decide +kernel, (never_stale_iff treeRace rfl steps).2 ⟨fun before a h => ?_, ?_⟩⟩
  · simpa using hpunctual _ ((List.mem_inits _ _).2 h) a (by simp)
  · rintro before h ⟨key, entry, hlookup, hwrapped, d, hd, hne⟩
    exact hne (hround before ((List.mem_inits _ _).2 h) ⟨key, entry⟩
      (AList.mem_lookup_iff.1 hlookup) d hd (hwrapped d hd))

/-- An invalidation comes between the execution and the put. -/
theorem overtaken_stale :
    let steps := [.lookup 0 readCall, .execute 0 { output := .string "1" },
      .invalidate_cache_dependency "file:read", .store 0 [readCall]]
    treeRace.self.cache.entries = ∅
      ∧ ¬ ∀ before, before <+: steps → (treeRace.run before).Fresh := by
  intro steps
  refine ⟨rfl, fun h => ?_⟩
  have hhit : (treeRace.run steps).self.hit? readCall = some (.string "1") := by decide +kernel
  have hsame := h steps (List.prefix_refl _) readCall _ hhit (lit "file:read") (by decide +kernel)
  revert hsame
  decide +kernel

end Race

end Praxis
