import Praxis.Proofs.Stale
import Praxis.Proofs.Trace

/-!
# The ledgers agree

The telemetry, the cache, the executor and the events each count the calls of the turns, at
different points of a turn. Between the turns of a session whose runs all return they agree.
-/

namespace Praxis

namespace Orchestrator

open Effect (Prog Blocks Keeps)

variable {W U E α β : Type} {M : Machine W U} {task : Str} {budget : Budget}

/-- What the components count, and the events that stand for calls. -/
structure Totals where
  cache_hits : UInt64
  cache_misses : UInt64
  tool_success : UInt64
  tool_failures : UInt64
  hits : UInt64
  invocations : UInt64
  failures : UInt64
  hit_events : ℕ
  finished_events : ℕ
  deriving DecidableEq

def totals (s : Sys W U E) : Totals where
  cache_hits := s.self.telemetry.cache_hits
  cache_misses := s.self.telemetry.cache_misses
  tool_success := s.self.telemetry.tool_success
  tool_failures := s.self.telemetry.tool_failures
  hits := s.self.cache.hits
  invocations := s.self.executor.invocations
  failures := s.self.executor.failures
  hit_events := (kinds s.self.replay.events).count .CacheHit
  finished_events := (kinds s.self.replay.events).count .ToolFinished

def failed (records : List ToolExecutionRecord) : ℕ := records.countP fun r => !r.result.ok

namespace Totals

/-- After a lookup with so many hits and misses. -/
def look (t : Totals) (hits misses : ℕ) : Totals :=
  { t with
    cache_hits := t.cache_hits + .ofNat hits
    cache_misses := t.cache_misses + .ofNat misses
    hits := t.hits + .ofNat hits
    hit_events := t.hit_events + hits }

/-- After an execution with so many records, so many of them failed. -/
def execute (t : Totals) (invocations failures : ℕ) : Totals :=
  { t with
    invocations := t.invocations + .ofNat invocations
    failures := t.failures + .ofNat failures }

/-- After so many records, so many of them failed, have been gone over. -/
def report (t : Totals) (success failures : ℕ) : Totals :=
  { t with
    tool_success := t.tool_success + .ofNat success
    tool_failures := t.tool_failures + .ofNat failures
    finished_events := t.finished_events + (success + failures) }

@[simp] theorem look_zero (t : Totals) : t.look 0 0 = t := by simp [look]

@[simp] theorem execute_zero (t : Totals) : t.execute 0 0 = t := by simp [execute]

@[simp] theorem report_zero (t : Totals) : t.report 0 0 = t := by simp [report]

@[simp] theorem look_look (t : Totals) (a b a' b' : ℕ) :
    (t.look a b).look a' b' = t.look (a + a') (b + b') := by
  simp only [look, UInt64.ofNat_add, UInt64.add_assoc, Nat.add_assoc]

@[simp] theorem report_report (t : Totals) (a b a' b' : ℕ) :
    (t.report a b).report a' b' = t.report (a + a') (b + b') := by
  simp only [report, UInt64.ofNat_add, UInt64.add_assoc, Totals.mk.injEq, true_and]
  omega

end Totals

/-- The program counts nothing. -/
abbrev Uncounted (x : RunM W U E α) : Prop := Keeps (fun s s' => totals s' = totals s) x

theorem uncounted_pure {a : α} : Uncounted (pure a : RunM W U E α) :=
  Keeps.pure (fun s => (rfl : totals s = totals s)) a

theorem uncounted_bind {x : RunM W U E α} {f : α → RunM W U E β} (hx : Uncounted x)
    (hf : ∀ a, Uncounted (f a)) : Uncounted (x >>= f) :=
  Keeps.bind (fun _ _ _ h h' => h'.trans h) hx hf

theorem uncounted_of {f : Sys W U E → Except Exn α × Sys W U E}
    (h : ∀ s, totals (f s).2 = totals s) : Uncounted (Prog.of f) := h

theorem uncounted_modifySelf {f : Orchestrator W U E → Orchestrator W U E}
    (h : ∀ s : Sys W U E, totals { s with self := f s.self } = totals s) :
    Uncounted (modifySelf f : RunM W U E Unit) := h

theorem kinds_push (replay : Replay E) (event : Event) :
    kinds (replay.push event).events = kinds replay.events ++ [event.kind] := by
  unfold Replay.push Replay.numbered
  split_ifs <;> simp [kinds]

theorem totals_record {kind : EventKind} {payload : List (Str × Json)} {s s' : Sys W U E}
    {r : Except Exn Unit} (h : (record kind payload).exec s = (r, s')) :
    totals s' =
      { totals s with
        hit_events := (totals s).hit_events + (if kind = .CacheHit then 1 else 0)
        finished_events :=
          (totals s).finished_events + (if kind = .ToolFinished then 1 else 0) } := by
  unfold record at h
  rw [Prog.exec_of] at h
  obtain rfl := (Prod.mk.inj h).2
  simp [totals, Replay.record, kinds_push, List.count_singleton]

theorem uncounted_record {kind : EventKind} {payload : List (Str × Json)}
    (hhit : kind ≠ .CacheHit) (hfinished : kind ≠ .ToolFinished) :
    Uncounted (record kind payload : RunM W U E Unit) := fun s => by
  show totals ((record kind payload).exec s).2 = totals s
  rw [totals_record (Prod.mk.eta (p := (record kind payload).exec s)).symm, if_neg hhit,
    if_neg hfinished]
  rfl

/-- The kinds of actions, other than events, that count nothing. -/
def Action.uncounted : Action → Bool
  | record | telemetry | lookup | execute => false
  | _ => true

theorem uncounted_writes {k : Action} (hk : k.uncounted = true) {s s' : Sys W U E}
    (h : Writes k s s') : totals s' = totals s := by
  cases h with
  | invalidate =>
    simp only [totals, invalidated_eq (f := Cache.hits) fun _ _ => rfl]
  | record | cacheHit | toolCall | lookup | execute => cases hk
  | _ => rfl

theorem Runs.uncounted {S : List Action} {x : RunM W U E α} (h : Runs M S x)
    (hS : ∀ k ∈ S, k.uncounted = true) : Uncounted x :=
  h.keepsWrites (R := fun s s' => totals s' = totals s) (fun _ => rfl)
    (fun _ _ _ h h' => h'.trans h) fun k hk _ _ => uncounted_writes (hS k hk)

theorem uncounted_action {k : Action} (hk : k.uncounted = true) {x : RunM W U E α}
    (h : Does M k x) : Uncounted x := fun s => uncounted_writes hk (h.writes s)

/-- The points whose blocks count nothing. -/
def Point.uncounted : Point → Bool
  | calling _ _ _ | called _ _ _ _ => false
  | _ => true

theorem uncounted_complete_and_observe (M : Machine W U) {role : Role} {messages : Messages} :
    Uncounted (complete_and_observe role messages : RunM W U E _) :=
  (runs_complete_and_observe (M := M) (S := [.complete, .cascade]) (by simp) (by simp)).uncounted
    (by decide)

theorem uncounted_finish {result : RunResult} : Uncounted (finish result : RunM W U E _) := by
  unfold finish
  split_ifs
  · exact uncounted_pure
  · exact uncounted_bind (uncounted_record (by decide) (by decide)) fun _ => uncounted_pure

theorem uncounted_apply_side_effects : Uncounted (apply_side_effects M : RunM W U E Unit) := by
  unfold apply_side_effects
  refine uncounted_bind (uncounted_of fun _ => rfl) fun changed => ?_
  split_ifs
  · exact uncounted_pure
  · exact uncounted_bind (uncounted_record (by decide) (by decide)) fun _ =>
      uncounted_action (k := .invalidate) rfl (.invalidate (M := M) changed)

theorem uncounted_block : ∀ {p : Point}, p.uncounted = true →
    Uncounted (p.block M task budget : RunM W U E Point)
  | .start, _ => uncounted_bind (uncounted_record (by decide) (by decide)) fun _ =>
      uncounted_bind (uncounted_action (k := .snapshot) rfl .take_snapshot) fun _ => uncounted_pure
  | .head l, _ => by
    unfold Point.block
    dsimp only
    split
    · exact uncounted_pure
    · exact uncounted_bind (uncounted_record (by decide) (by decide)) fun _ => uncounted_pure
  | .asking _, _ | .reviewing _ _ _ _, _ =>
    uncounted_bind (uncounted_complete_and_observe M) fun _ => uncounted_pure
  | .answered _ _ (.error _), _ =>
    uncounted_bind (uncounted_record (by decide) (by decide)) fun _ => uncounted_pure
  | .answered _ _ (.ok resp), _ => by
    have haccount : Uncounted (account resp.raw : RunM W U E _) :=
      (runs_account (M := M) (S := [.tokens]) (by simp)).uncounted (by decide)
    refine uncounted_bind (uncounted_record (by decide) (by decide)) fun _ =>
      uncounted_bind haccount fun turn_cost => ?_
    dsimp only
    split
    · exact uncounted_bind (uncounted_record (by decide) (by decide)) fun _ => uncounted_pure
    · split_ifs
      · exact uncounted_bind (uncounted_record (by decide) (by decide)) fun _ => uncounted_pure
      · exact uncounted_bind (uncounted_of fun _ => rfl) fun _ =>
          uncounted_bind (uncounted_record (by decide) (by decide)) fun _ => uncounted_pure
  | .reviewed _ _ _ _ (.error _), _ =>
    uncounted_bind (uncounted_modifySelf fun _ => rfl) fun _ => uncounted_pure
  | .reviewed _ _ _ _ (.ok resp), _ => by
    unfold Point.block
    dsimp only
    split
    · exact uncounted_pure
    · refine uncounted_bind (uncounted_record (by decide) (by decide)) fun _ =>
        uncounted_bind (uncounted_modifySelf fun _ => rfl) fun _ => ?_
      split_ifs
      · exact uncounted_bind (uncounted_record (by decide) (by decide)) fun _ => uncounted_pure
      · exact uncounted_pure
  | .observing _, _ => uncounted_bind uncounted_apply_side_effects fun _ => uncounted_pure
  | .leaving _, _ => uncounted_bind uncounted_finish fun _ => uncounted_pure
  | .ended _, _ => uncounted_pure

/-- If nothing is to be cached, nothing is. -/
def Idle (self : Orchestrator W U E) : Prop :=
  self.options.cache_tools = true ∨ self.cache.entries = ∅

theorem cache_hits_get {self : Orchestrator W U E} (h : Idle self) (call : ToolCall) :
    let view := callView self.registry call
    (self.cache.get (cache_key view) view.dependencies).2.hits
      = if (self.hit? call).isSome then self.cache.hits + 1 else self.cache.hits := by
  dsimp only
  rw [Cache.get_counters]
  unfold hit?
  dsimp only
  rcases h with hon | hempty
  · rw [if_pos hon]
    split_ifs <;> rfl
  · have hnone : ∀ key deps, self.cache.answer key deps = none := fun key deps => by
      simp [Cache.answer, Cache.get, hempty]
    simp only [hnone]
    simp [Cache.countMiss]

theorem totals_lookup_call {s s' : Sys W U E} {call : ToolCall} {cached : Option Json}
    (hidle : Idle s.self)
    (h : (lookup_call (callView s.self.registry call)).exec s = (.ok cached, s')) :
    totals s' = if cached.isSome then (totals s).look 1 0 else (totals s).look 0 1 := by
  have hget := cache_hits_get hidle call
  dsimp only at hget
  have hfound : (if s.self.options.cache_tools then
      (s.self.cache.get (cache_key (callView s.self.registry call))
        (callView s.self.registry call).dependencies).1 else none) = s.self.hit? call := rfl
  obtain rfl := (lookup_call_eq_ok h).1
  unfold lookup_call at h
  rw [Prog.exec_bind, Prog.exec_step] at h
  dsimp only at h
  rw [Prog.exec_bind, exec_modifySelf] at h
  dsimp only at h
  cases hhit : s.self.hit? call with
  | none =>
    rw [hhit] at hget
    rw [hfound, hhit] at h
    cases h
    simp [totals, Totals.look, Telemetry.record_cache_hit, hget]
  | some output =>
    rw [hhit] at hget
    rw [hfound, hhit] at h
    obtain ⟨_, s₁, h₁, h⟩ := Prog.exec_bind_eq_ok.1 h
    cases h
    rw [totals_record h₁]
    simp [totals, Totals.look, Telemetry.record_cache_hit, hget]

theorem totals_lookup_calls {registry : ToolRegistry W U} :
    ∀ {calls : List ToolCall} {i : ℕ} {s s' : Sys W U E}
      {found : List ToolCall × List (ℕ × Json)}, s.self.registry = registry → Idle s.self →
      (lookup_calls i (calls.zip (build_call_views registry calls))).exec s = (.ok found, s') →
      totals s' = (totals s).look found.2.length found.1.length
        ∧ found.2.length + found.1.length = calls.length
  | [], i, s, s', found, _, _, h => by
    cases h
    exact ⟨(Totals.look_zero _).symm, rfl⟩
  | call :: calls, i, s, s', found, rfl, hidle, h => by
    obtain ⟨cached, s₁, rest, h₁, h₂, rfl⟩ := lookup_calls_cons_eq_ok h
    have hl := (lookup_call_eq_ok h₁).2
    have hidle₁ : Idle s₁.self := by
      unfold Idle
      rwa [hl.options, hl.entries]
    obtain ⟨htotals, hlen⟩ := totals_lookup_calls hl.registry hidle₁ h₂
    rw [totals_lookup_call hidle h₁] at htotals
    cases cached with
    | none =>
      refine ⟨by simpa [Nat.add_comm] using htotals, ?_⟩
      simp only [Option.elim_none, List.length_cons]
      omega
    | some output =>
      refine ⟨by simpa [Nat.add_comm] using htotals, ?_⟩
      simp only [Option.elim_some, List.length_cons]
      omega

/-- The failed records of a turn are those of its misses: what the cache answers does not fail. -/
theorem failed_splice {self : Orchestrator W U E} {calls : List ToolCall}
    {executed : List ToolExecutionRecord} (hnd : (calls.map (·.ordinal)).Nodup)
    (hlen : executed.length = (self.misses calls).length) :
    failed (splice calls (self.misses calls) executed (self.hitsFrom 0 calls))
      = failed executed := by
  have hmisses : executed.length = (self.missIndices calls).length := by
    rw [hlen, misses_eq, List.length_map]
  set records := splice calls (self.misses calls) executed (self.hitsFrom 0 calls) with hrecords
  have hlength : records.length = calls.length := splice_length _ _
  have hrange : records = (List.range calls.length).map fun i => records.getD i {} := by
    refine List.ext_getElem (by simp [hlength]) fun i hi _ => ?_
    simp [hi]
  have hexecuted : executed = (self.missIndices calls).map fun i => records.getD i {} := by
    refine List.ext_getElem (by simp [hmisses]) fun k hk hk' => ?_
    have hkm : k < (self.missIndices calls).length := hmisses ▸ hk
    have hmiss := splice_miss hnd hmisses hkm
    rw [← hrecords, List.getElem?_eq_getElem hk] at hmiss
    simp [hmiss]
  have hhits : ((List.range calls.length).filter fun i =>
      !(self.hit? (calls.getD i {})).isNone).countP
        (fun i => !(records.getD i {}).result.ok) = 0 := by
    refine List.countP_eq_zero.2 fun i hi => ?_
    obtain ⟨hi, hhit⟩ := List.mem_filter.1 hi
    obtain ⟨output, houtput⟩ : ∃ output, self.hit? (calls.getD i {}) = some output :=
      Option.isSome_iff_exists.1 (by simpa using hhit)
    have hspliced := splice_hit hnd hmisses (List.mem_range.1 hi) houtput
    rw [← hrecords] at hspliced
    simp [hspliced, hitRecord]
  calc failed records
      = (List.range calls.length).countP fun i => !(records.getD i {}).result.ok := by
        conv_lhs => rw [failed, hrange, List.countP_map]
        rfl
    _ = (self.missIndices calls).countP fun i => !(records.getD i {}).result.ok := by
        rw [List.countP_eq_countP_filter_add _ _ fun i => (self.hit? (calls.getD i {})).isNone,
          hhits, Nat.add_zero]
        rfl
    _ = failed executed := by
        conv_rhs => rw [failed, hexecuted, List.countP_map]
        rfl

/-- An execution that returns has one record for each call, and counts them. -/
theorem totals_execute_pending {pending : List ToolCall} {s s' : Sys W U E}
    {executed : List ToolExecutionRecord}
    (h : (execute_pending M pending).exec s = (.ok executed, s')) :
    executed.length = pending.length
      ∧ totals s' = (totals s).execute executed.length (failed executed) := by
  rcases execute_pending_eq_ok h with ⟨rfl, rfl, rfl⟩ | ⟨ex', w', hexec, rfl⟩
  · exact ⟨rfl, (Totals.execute_zero _).symm⟩
  · obtain ⟨hlen, rfl⟩ := ToolExecutor.execute_eq_ok _ _ _ _ _ hexec
    exact ⟨hlen, by rw [ToolExecutor.foldl_count]; rfl⟩

/-- The calls of a turn are looked up and the misses executed; that the records agree with the
counters is what `run_calls` is for. -/
theorem totals_run_calls {calls : List ToolCall} {s s' : Sys W U E}
    {records : List ToolExecutionRecord} (hnd : (calls.map (·.ordinal)).Nodup)
    (hidle : Idle s.self)
    (h : (run_calls M calls (build_call_views s.self.registry calls)).exec s
      = (.ok records, s')) :
    records.length = calls.length ∧ ∃ hits misses, hits + misses = calls.length
      ∧ totals s' = ((totals s).look hits misses).execute misses (failed records) := by
  unfold run_calls at h
  obtain ⟨found, s₁, h₁, h⟩ := Prog.exec_bind_eq_ok.1 h
  obtain ⟨executed, s₂, h₂, h⟩ := Prog.exec_bind_eq_ok.1 h
  obtain rfl := (lookup_calls_eq_ok rfl h₁).1
  obtain ⟨htotals₁, hlen⟩ := totals_lookup_calls rfl hidle h₁
  obtain ⟨hexecuted, htotals₂⟩ := totals_execute_pending h₂
  cases h
  refine ⟨splice_length _ _, _, _, hlen, ?_⟩
  rw [failed_splice hnd hexecuted, ← htotals₁, ← hexecuted]
  exact htotals₂

theorem totals_record_tool_call {ok : Bool} {s : Sys W U E} :
    totals { s with self :=
      { s.self with telemetry := s.self.telemetry.record_tool_call ok } }
      = { totals s with
          tool_success := (totals s).tool_success + if ok then 1 else 0
          tool_failures := (totals s).tool_failures + if ok then 0 else 1 } := by
  cases ok <;> simp [totals, Telemetry.record_tool_call]

theorem totals_record_result {chosen_tier : Tier} {views : List CallView}
    {rec : ToolExecutionRecord} {s s' : Sys W U E} {r : Str × Message}
    (h : (record_result M chosen_tier views rec).exec s = (.ok r, s')) :
    totals s' = (totals s).report (1 - failed [rec]) (failed [rec]) := by
  unfold record_result at h
  obtain ⟨_, s₁, h₁, h⟩ := Prog.exec_bind_eq_ok.1 h
  obtain ⟨_, s₂, h₂, h⟩ := Prog.exec_bind_eq_ok.1 h
  rw [exec_modifySelf] at h₁
  have hrest : Uncounted (modifySelf (fun self =>
        if rec.result.ok then self else record_failure chosen_tier self) >>= fun _ =>
      modifySelf (cache_result views rec) >>= fun _ =>
      Prog.ofExcept (resultBody M.text rec) >>= fun body => store_result M.text body >>= fun id =>
        pure (id, toolMessage rec body) : RunM W U E (Str × Message)) := by
    refine uncounted_bind (uncounted_modifySelf fun s => ?_) fun _ =>
      uncounted_bind (uncounted_action (k := .cacheResult) rfl (.cache_result (M := M) views rec))
        fun _ => uncounted_bind (uncounted_of fun _ => rfl) fun body =>
          uncounted_bind (uncounted_action (k := .store) rfl (.store_result (M := M) body))
            fun id => uncounted_pure
    split_ifs <;> rfl
  have hkept := hrest s₂
  rw [h] at hkept
  rw [hkept, totals_record h₂, ← (Prod.mk.inj h₁).2, totals_record_tool_call]
  cases hok : rec.result.ok <;> simp [failed, hok, Totals.report]

theorem totals_record_results {chosen_tier : Tier} {views : List CallView} :
    ∀ {records : List ToolExecutionRecord} {turn_ctx : TurnContext} {messages : Messages}
      {s s' : Sys W U E} {r : TurnContext × Messages},
      (record_results M chosen_tier views records turn_ctx messages).exec s = (.ok r, s') →
      totals s' = (totals s).report (records.length - failed records) (failed records)
  | [], _, _, s, s', r, h => by
    cases h
    exact (Totals.report_zero _).symm
  | rec :: records, _, _, s, s', r, h => by
    unfold record_results at h
    obtain ⟨_, s₁, h₁, h⟩ := Prog.exec_bind_eq_ok.1 h
    have hle : failed records ≤ records.length := List.countP_le_length
    have hfailed : failed ([rec] ++ records) = failed [rec] + failed records := List.countP_append
    rw [List.singleton_append] at hfailed
    have hone : failed [rec] ≤ 1 := List.countP_le_length
    rw [totals_record_results h, totals_record_result h₁, Totals.report_report, hfailed,
      List.length_cons]
    congr 1
    omega

theorem idle_congr {self self' : Orchestrator W U E} (hoptions : self'.options = self.options)
    (hentries : self'.cache.entries = self.cache.entries) (h : Idle self) : Idle self' := by
  unfold Idle
  rwa [hoptions, hentries]

theorem idle_writes {k : Action} {s s' : Sys W U E} (h : Writes k s s') (hs : Idle s.self) :
    Idle s'.self := by
  cases h with
  | lookup =>
    refine idle_congr ?_ ?_ hs
    · rfl
    · exact Cache.get_entries _ _ _
  | cacheResult _ view output hon => exact .inl hon
  | invalidate =>
    refine idle_congr ?_ ?_ hs
    · rfl
    · exact invalidated_eq (fun _ _ => rfl) _ _
  | _ => exact hs

theorem idle_block (p : Point) :
    Keeps (fun s s' : Sys W U E => Idle s.self → Idle s'.self) (p.block M task budget) :=
  (runs_block p).keepsWrites (R := fun s s' => Idle s.self → Idle s'.self) (fun _ h => h)
    (fun _ _ _ h h' hs => h' (h hs)) fun _ _ _ _ => idle_writes

/-- The calls that a turn has proposed and not run yet. -/
def Point.proposed : Point → List ToolCall
  | reviewing _ _ _ calls | reviewed _ _ calls _ _ | calling _ _ calls => calls
  | _ => []

/-- The calls that are about to be looked up. -/
def Point.uncalled : Point → List ToolCall
  | calling _ _ calls => calls
  | _ => []

/-- The records that are about to be gone over. -/
def Point.unrecorded : Point → List ToolExecutionRecord
  | called _ _ _ records => records
  | _ => []

/-- The extracted calls of a turn that is neither overridden nor ended before the tools are
executed, of the move that goes on to execute them. -/
def letThrough (m : Config W U E × Config W U E) : List ToolCall :=
  match m.1.1, m.2.1 with
  | .ok (.reviewed _ _ calls _ (.error _)), .ok _ => calls
  | .ok (.reviewed _ _ calls _ (.ok resp)), .ok _ =>
    if (overridePlan resp.outcome.plan).isSome then [] else calls
  | _, _ => []

theorem Point.Next.uncalled {p q : Point} {s s' : Sys W U E} (h : Point.Next M task budget p q)
    (hp : p.uncounted = true) :
    q.unrecorded = [] ∧ q.uncalled = letThrough ((.ok p, s), (.ok q, s')) := by
  cases h with
  | call | results => cases hp
  | confirm h | overrideEnd h | override h =>
    simp [unrecorded, Point.uncalled, letThrough, h]
  | _ => exact ⟨rfl, rfl⟩

theorem Point.Next.distinct {p q : Point} (h : Point.Next M task budget p q)
    (hp : (p.proposed.map (·.ordinal)).Nodup) : (q.proposed.map (·.ordinal)).Nodup := by
  cases h with
  | propose _ _ _ hcalls => exact extract_tool_calls_nodup hcalls
  | review | stand | confirm => exact hp
  | _ => exact List.nodup_nil

/-- Of `n` calls let through so far, those that have been looked up are hits or misses, and those
whose records have been gone over have succeeded or failed. -/
structure Balanced (n : ℕ) (p : Point) (s : Sys W U E) : Prop where
  distinct : (p.proposed.map (·.ordinal)).Nodup
  idle : Idle s.self
  totals : ∃ hits misses success failures, hits + misses + p.uncalled.length = n
    ∧ success + failures + p.unrecorded.length + p.uncalled.length = n
    ∧ totals s =
      { cache_hits := .ofNat hits
        cache_misses := .ofNat misses
        tool_success := .ofNat success
        tool_failures := .ofNat failures
        hits := .ofNat hits
        invocations := .ofNat misses
        failures := .ofNat (failures + failed p.unrecorded)
        hit_events := hits
        finished_events := success + failures }

theorem Balanced.move {n : ℕ} {p q : Point} {s s' : Sys W U E} (h : Balanced n p s)
    (hadvance : (control M task budget).advance (.ok p, s) = some (.ok q, s')) :
    Balanced (n + (letThrough ((.ok p, s), (.ok q, s'))).length) q s' := by
  have hexec := (exec_of_advance hadvance).2
  have hnext := next_of_advance hadvance
  have hblock : Keeps (fun s s' : Sys W U E => Idle s.self → Idle s'.self)
      (p.block M task budget) := idle_block p
  have hidle := hblock s h.idle
  rw [hexec] at hidle
  obtain ⟨hits, misses, success, failures, hlooked, hreported, htotals⟩ := h.totals
  refine ⟨hnext.distinct h.distinct, hidle, ?_⟩
  by_cases hp : p.uncounted = true
  · obtain ⟨hunrecorded, huncalled⟩ := hnext.uncalled hp
    have hquiet : Uncounted (p.block M task budget : RunM W U E Point) := uncounted_block hp
    have hkept := hquiet s
    rw [hexec] at hkept
    have hnone : p.unrecorded = [] ∧ p.uncalled = [] := by
      cases p with
      | calling | called => cases hp
      | _ => exact ⟨rfl, rfl⟩
    rw [hnone.1, hnone.2] at hreported
    rw [hnone.2] at hlooked
    rw [hnone.1] at htotals
    refine ⟨hits, misses, success, failures, ?_, ?_, ?_⟩
    · rw [huncalled, ← hlooked, List.length_nil, Nat.add_zero]
    · rw [hunrecorded, huncalled, ← hreported]
      simp
    · rw [hunrecorded, ← htotals]
      exact hkept
  · cases p with
    | calling l chosen_tier calls =>
      obtain ⟨payload, s₁, records, h₁, h₂, rfl⟩ := exec_calling hexec
      have hrendered := totals_record h₁
      have hl := lookedUp_record h₁
      have hdistinct : (calls.map (·.ordinal)).Nodup := h.distinct
      obtain ⟨hlen, hits', misses', hsum, htotals'⟩ :=
        totals_run_calls hdistinct (idle_congr hl.options hl.entries h.idle) h₂
      rw [hrendered, htotals] at htotals'
      refine ⟨hits + hits', misses + misses', success, failures, ?_, ?_, ?_⟩
      · simp only [Point.uncalled, letThrough] at hlooked ⊢
        simp
        omega
      · simp only [Point.uncalled, Point.unrecorded, letThrough] at hreported ⊢
        simp at hreported ⊢
        omega
      · rw [htotals']
        simp [Totals.look, Totals.execute, Point.unrecorded, failed, UInt64.ofNat_add]
    | called l chosen_tier views records =>
      obtain ⟨_, s₁, h₁, hrest₁⟩ := Prog.exec_bind_eq_ok.1 hexec
      obtain ⟨_, s₂, h₂, hrest₂⟩ := Prog.exec_bind_eq_ok.1 hrest₁
      cases h₂
      cases hrest₂
      have htotals' := totals_record_results h₁
      have hle : failed records ≤ records.length := List.countP_le_length
      rw [htotals] at htotals'
      refine ⟨hits, misses, success + (records.length - failed records),
        failures + failed records, ?_, ?_, ?_⟩
      · simpa [Point.uncalled, letThrough] using hlooked
      · simp only [Point.uncalled, Point.unrecorded, letThrough] at hreported ⊢
        simp at hreported ⊢
        omega
      · rw [htotals']
        simp only [Totals.report, Point.unrecorded, UInt64.ofNat_add, Totals.mk.injEq, true_and]
        refine ⟨?_, ?_⟩
        · simp [failed]
        · omega
    | _ => exact absurd rfl hp

/-! ## The session -/

def SessionReturns (M : Machine W U) : List (Str × Budget) → Sys W U E → Prop
  | [], _ => True
  | (task, budget) :: runs, s =>
    ((run M task budget).exec s).1.isOk ∧ SessionReturns M runs ((run M task budget).exec s).2

def sessionEnd (M : Machine W U) : List (Str × Budget) → Sys W U E → Sys W U E
  | [], s => s
  | (task, budget) :: runs, s => sessionEnd M runs ((run M task budget).exec s).2

/-- Between the runs nothing is under way. -/
theorem Balanced.rest {n : ℕ} {r : Result RunResult} {s : Sys W U E}
    (h : Balanced n (.ended r) s) : Balanced n .start s := ⟨List.nodup_nil, h.idle, h.totals⟩

theorem balanced_run {n : ℕ} {s : Sys W U E} (h : Balanced n .start s)
    (hret : ((run M task budget).exec s).1.isOk) :
    Balanced (n + ((moves M task budget s).flatMap letThrough).length) .start
      ((run M task budget).exec s).2 := by
  obtain ⟨r, hr⟩ : ∃ r, ((run M task budget).exec s).1 = .ok r := by
    rcases hrun : ((run M task budget).exec s).1 with e | r
    · rw [hrun] at hret
      cases hret
    · exact ⟨r, rfl⟩
  have hall := Blocks.along (control M task budget) (c := (.ok .start, s))
    (Q := fun ms d => ∀ p, d.1 = .ok p → Balanced (n + (ms.flatMap letThrough).length) p d.2)
    (fun p hp => by cases hp; exact h) (fun ms d d' hQ hadvance q hq => ?_) (List.prefix_refl _)
  · have hrun : (run M task budget).exec s = (.ok r, ((run M task budget).exec s).2) :=
      Prod.ext hr rfl
    have hstop := stop_moves hrun
    rw [moves] at hstop ⊢
    rw [hstop] at hall
    exact (hall _ rfl).rest
  · obtain ⟨_ | p, s₁⟩ := d
    · cases hadvance
    · obtain ⟨_, s₂⟩ := d'
      obtain rfl : _ = Except.ok q := hq
      have hmoved := (hQ p rfl).move hadvance
      rw [List.flatMap_append, List.length_append, List.flatMap_singleton, ← Nat.add_assoc]
      exact hmoved

theorem balanced_session :
    ∀ {runs : List (Str × Budget)} {n : ℕ} {s : Sys W U E}, Balanced n .start s →
      SessionReturns M runs s →
      Balanced (n + ((sessionMoves M runs s).flatMap letThrough).length) .start
        (sessionEnd M runs s)
  | [], n, s, h, _ => by simpa [sessionMoves, sessionEnd] using h
  | (task, budget) :: runs, n, s, h, hret => by
    have hrest := balanced_session (balanced_run h hret.1) hret.2
    rw [Nat.add_assoc, ← List.length_append, ← List.flatMap_append] at hrest
    exact hrest

/-- Nothing has been counted and nothing cached. -/
structure Unused (o : Orchestrator W U E) : Prop where
  telemetry : o.telemetry = {}
  cache : o.cache = {}
  invocations : o.executor.invocations = 0
  failures : o.executor.failures = 0
  events : o.replay.events = []

theorem Unused.balanced {s : Sys W U E} (h : Unused s.self) : Balanced 0 .start s where
  distinct := List.nodup_nil
  idle := .inr (by rw [h.cache])
  totals := ⟨0, 0, 0, 0, rfl, rfl, by
    simp only [totals, h.telemetry, h.cache, h.invocations, h.failures, h.events]
    rfl⟩

/-- After any runs that return, the calls let through, the finished events, the records counted by
the telemetry and its lookups are as many, its hits are the cache's and those of the events, and
its misses and failures are the executor's. The counters have 64 bits. -/
theorem ledgers_agree (M : Machine W U) (runs : List (Str × Budget)) (s : Sys W U E)
    (hnew : Unused s.self) (hret : SessionReturns M runs s) :
    let n := ((sessionMoves M runs s).flatMap letThrough).length
    let t := totals (sessionEnd M runs s)
    t.finished_events = n ∧ t.tool_success + t.tool_failures = .ofNat n
      ∧ t.cache_hits + t.cache_misses = .ofNat n
      ∧ t.cache_hits = t.hits ∧ t.cache_hits = .ofNat t.hit_events
      ∧ t.invocations = t.cache_misses ∧ t.failures = t.tool_failures := by
  intro n t
  obtain ⟨-, -, hits, misses, success, failures, hlooked, hreported, htotals⟩ :=
    balanced_session hnew.balanced hret
  have ht : t = _ := htotals
  simp only [Point.uncalled, Point.unrecorded, List.length_nil, Nat.add_zero, Nat.zero_add]
    at hlooked hreported
  rw [ht]
  refine ⟨hreported, ?_, ?_, rfl, rfl, rfl, rfl⟩
  · rw [← UInt64.ofNat_add, hreported]
  · rw [← UInt64.ofNat_add, hlooked]

/-- A file is read twice, and a tool is called that is not there: a hit and two misses, one of
them a failure. -/
theorem ledgers_agree_reread :
    let s := treeStart [proposal "read_file" readTree, answer "CONFIRM",
      proposal "read_file" readTree, answer "CONFIRM", proposal "list" "", answer "CONFIRM",
      answer "done"]
    let t := totals (sessionEnd treeMachine [("task", {})] s)
    (t.tool_success = 2 ∧ t.tool_failures = 1 ∧ t.cache_hits = 1 ∧ t.cache_misses = 2)
      ∧ t.finished_events = ((sessionMoves treeMachine [("task", {})] s).flatMap letThrough).length
      ∧ t.cache_hits = t.hits ∧ t.invocations = t.cache_misses ∧ t.failures = t.tool_failures := by
  intro s t
  have hret : SessionReturns treeMachine [("task", {})] s := ⟨by decide +kernel, trivial⟩
  obtain ⟨hfinished, -, -, hhits, -, hinvocations, hfailures⟩ :=
    ledgers_agree treeMachine [("task", {})] s ⟨rfl, rfl, rfl, rfl, rfl⟩ hret
  exact ⟨by decide +kernel, hfinished, hhits, hinvocations, hfailures⟩

end Orchestrator

end Praxis
