import Praxis.Proofs.CacheHistory
import Praxis.Proofs.Extract
import Praxis.Proofs.Serial

/-!
# The records of a turn

The executor returns its records group by group, and `run` pairs the `k`-th of them with the `k`-th
call that the cache could not answer. The record that stands at a call's index is therefore its own
exactly when the groups, one after the other, list those calls in order.
-/

namespace Praxis

open Effect (Prog)

section Updates

variable {α : Type}

theorem getElem?_foldl_set :
    ∀ (updates : List (ℕ × α)) (l : List α), (updates.map Prod.fst).Nodup → ∀ i,
      (updates.foldl (fun l u => l.set u.1 u.2) l)[i]?
        = (l[i]?).map fun old => (updates.lookup i).getD old
  | [], l, _, i => by simp
  | (j, v) :: updates, l, hnd, i => by
    rw [List.map_cons, List.nodup_cons] at hnd
    rw [List.foldl_cons, getElem?_foldl_set updates _ hnd.2, List.getElem?_set, List.lookup_cons]
    by_cases hij : i = j
    · subst hij
      have hnone : updates.lookup i = none := by
        rw [List.lookup_eq_none_iff]
        intro u hu
        simp only [bne_iff_ne, ne_eq]
        intro he
        have hmem : u.1 ∈ updates.map Prod.fst := List.mem_map_of_mem hu
        exact hnd.1 (he ▸ hmem)
      by_cases hi : i < l.length
      · simp [hi, hnone]
      · simp [hi]
    · have hne : (i == j) = false := by simp [hij]
      rw [if_neg (Ne.symm hij), hne]

theorem length_foldl_set : ∀ (updates : List (ℕ × α)) (l : List α),
    (updates.foldl (fun l u => l.set u.1 u.2) l).length = l.length
  | [], _ => rfl
  | u :: updates, l => by rw [List.foldl_cons, length_foldl_set updates, List.length_set]

theorem mem_foldl_set : ∀ {updates : List (ℕ × α)} {l : List α} {x : α},
    x ∈ updates.foldl (fun l u => l.set u.1 u.2) l → x ∈ l ∨ ∃ u ∈ updates, u.2 = x
  | [], _, _, h => .inl h
  | u :: updates, l, x, h => by
    have hrest : x ∈ l.set u.1 u.2 ∨ ∃ u' ∈ updates, u'.2 = x := mem_foldl_set h
    rcases hrest with h | ⟨u', hu', he⟩
    · rcases List.mem_or_eq_of_mem_set h with h | rfl
      · exact .inl h
      · exact .inr ⟨u, List.mem_cons_self, rfl⟩
    · exact .inr ⟨u', List.mem_cons_of_mem _ hu', he⟩

theorem lookup_of_mem {i : ℕ} {v : α} :
    ∀ {l : List (ℕ × α)}, (l.map Prod.fst).Nodup → (i, v) ∈ l → l.lookup i = some v
  | (j, w) :: l, hnd, h => by
    rw [List.map_cons, List.nodup_cons] at hnd
    rw [List.lookup_cons]
    rcases List.mem_cons.1 h with he | h
    · obtain ⟨rfl, rfl⟩ := Prod.mk.injEq .. ▸ he
      simp
    · have hmem : i ∈ l.map Prod.fst := List.mem_map_of_mem (f := Prod.fst) h
      have hne : (i == j) = false := by
        simp only [beq_eq_false_iff_ne, ne_eq]
        rintro rfl
        exact hnd.1 hmem
      rw [hne]
      exact lookup_of_mem hnd.2 h

end Updates

namespace Orchestrator

variable {W U E : Type}

/-- The cached output that `run` would use for a call. -/
def hit? (self : Orchestrator W U E) (call : ToolCall) : Option Json :=
  let view := callView self.registry call
  if self.options.cache_tools then self.cache.answer (cache_key view) view.dependencies else none

/-- The calls that the cache does not answer. -/
def misses (self : Orchestrator W U E) (calls : List ToolCall) : List ToolCall :=
  calls.filter fun call => (self.hit? call).isNone

/-- The indices, from `i` on, of the calls that the cache answers, with the answers. -/
def hitsFrom (self : Orchestrator W U E) : ℕ → List ToolCall → List (ℕ × Json)
  | _, [] => []
  | i, call :: calls =>
    match self.hit? call with
    | some output => (i, output) :: hitsFrom self (i + 1) calls
    | none => hitsFrom self (i + 1) calls

variable {self : Orchestrator W U E}

theorem mem_hitsFrom : ∀ {calls : List ToolCall} {i j : ℕ} {output : Json},
    (j, output) ∈ self.hitsFrom i calls
      ↔ ∃ k, j = i + k ∧ ∃ h : k < calls.length, self.hit? calls[k] = some output
  | [], i, j, output => by simp [hitsFrom]
  | call :: calls, i, j, output => by
    have hrest : (j, output) ∈ self.hitsFrom (i + 1) calls
        ↔ ∃ k, j = i + 1 + k ∧ ∃ h : k < calls.length, self.hit? calls[k] = some output :=
      mem_hitsFrom
    have hshift : (∃ k, j = i + 1 + k ∧ ∃ h : k < calls.length,
        self.hit? calls[k] = some output)
        ↔ ∃ k, k ≠ 0 ∧ j = i + k ∧ ∃ h : k < (call :: calls).length,
          self.hit? (call :: calls)[k] = some output := by
      constructor
      · rintro ⟨k, rfl, h, he⟩
        exact ⟨k + 1, by omega, by omega, by simpa using h, by simpa using he⟩
      · rintro ⟨k, hk, rfl, h, he⟩
        obtain ⟨m, rfl⟩ := Nat.exists_eq_succ_of_ne_zero hk
        exact ⟨m, by omega, by simpa using h, by simpa using he⟩
    have hsplit : (∃ k, j = i + k ∧ ∃ h : k < (call :: calls).length,
        self.hit? (call :: calls)[k] = some output)
        ↔ (j = i ∧ self.hit? call = some output) ∨ (j, output) ∈ self.hitsFrom (i + 1) calls := by
      rw [hrest, hshift]
      constructor
      · rintro ⟨k, rfl, h, he⟩
        rcases Nat.eq_zero_or_pos k with rfl | hk
        · exact .inl ⟨rfl, he⟩
        · exact .inr ⟨k, hk.ne', rfl, h, he⟩
      · rintro (⟨rfl, he⟩ | ⟨k, -, rfl, h, he⟩)
        · exact ⟨0, rfl, by simp, he⟩
        · exact ⟨k, rfl, h, he⟩
    rw [hsplit, hitsFrom]
    cases self.hit? call with
    | none => simp
    | some cached => simp [Prod.ext_iff, eq_comm]

theorem hitsFrom_nodup : ∀ (calls : List ToolCall) (i : ℕ),
    ((self.hitsFrom i calls).map Prod.fst).Nodup
  | [], _ => by simp [hitsFrom]
  | call :: calls, i => by
    rw [hitsFrom]
    cases self.hit? call with
    | none => exact hitsFrom_nodup calls (i + 1)
    | some cached =>
      refine List.nodup_cons.2 ⟨fun h => ?_, hitsFrom_nodup calls (i + 1)⟩
      obtain ⟨⟨j, output⟩, hj, rfl⟩ := List.mem_map.1 h
      obtain ⟨k, hk, -⟩ := mem_hitsFrom.1 hj
      omega

/-- What a lookup leaves as it was. -/
structure LookedUp (s s' : Sys W U E) : Prop where
  options : s'.self.options = s.self.options
  retrying : s'.self.retrying = s.self.retrying
  router : s'.self.router = s.self.router
  registry : s'.self.registry = s.self.registry
  executor : s'.self.executor = s.self.executor
  context : s'.self.context = s.self.context
  cascade : s'.self.cascade = s.self.cascade
  side_effects : s'.self.side_effects = s.self.side_effects
  tool_ctx : s'.self.tool_ctx = s.self.tool_ctx
  sinks : s'.self.replay.sinks = s.self.replay.sinks
  entries : s'.self.cache.entries = s.self.cache.entries
  answer : ∀ key deps, s'.self.cache.answer key deps = s.self.cache.answer key deps
  world : s'.world = s.world
  ledger : s'.ledger = s.ledger
  env {V : Type} (view : E → V) : s.self.replay.Passive view → view s'.env = view s.env

theorem LookedUp.refl (s : Sys W U E) : LookedUp s s where
  options := rfl
  retrying := rfl
  router := rfl
  registry := rfl
  executor := rfl
  context := rfl
  cascade := rfl
  side_effects := rfl
  tool_ctx := rfl
  sinks := rfl
  entries := rfl
  answer := fun _ _ => rfl
  world := rfl
  ledger := rfl
  env := fun _ _ => rfl

theorem LookedUp.passive {V : Type} {view : E → V} {s s' : Sys W U E} (h : LookedUp s s')
    (hs : s.self.replay.Passive view) : s'.self.replay.Passive view :=
  fun sink hsink => hs sink (h.sinks ▸ hsink)

theorem LookedUp.trans {s s' s'' : Sys W U E} (h : LookedUp s s') (h' : LookedUp s' s'') :
    LookedUp s s'' where
  options := h'.options.trans h.options
  retrying := h'.retrying.trans h.retrying
  router := h'.router.trans h.router
  registry := h'.registry.trans h.registry
  executor := h'.executor.trans h.executor
  context := h'.context.trans h.context
  cascade := h'.cascade.trans h.cascade
  side_effects := h'.side_effects.trans h.side_effects
  tool_ctx := h'.tool_ctx.trans h.tool_ctx
  sinks := h'.sinks.trans h.sinks
  entries := h'.entries.trans h.entries
  answer := fun key deps => (h'.answer key deps).trans (h.answer key deps)
  world := h'.world.trans h.world
  ledger := h'.ledger.trans h.ledger
  env := fun view hs => (h'.env view (h.passive hs)).trans (h.env view hs)

theorem LookedUp.hit? {s s' : Sys W U E} (h : LookedUp s s') (call : ToolCall) :
    s'.self.hit? call = s.self.hit? call := by
  simp only [Orchestrator.hit?, h.registry, h.options, h.answer]

theorem LookedUp.misses {s s' : Sys W U E} (h : LookedUp s s') (calls : List ToolCall) :
    s'.self.misses calls = s.self.misses calls := by
  simp only [Orchestrator.misses, h.hit?]

theorem LookedUp.hitsFrom {s s' : Sys W U E} (h : LookedUp s s') :
    ∀ (calls : List ToolCall) (i : ℕ), s'.self.hitsFrom i calls = s.self.hitsFrom i calls
  | [], _ => rfl
  | call :: calls, i => by
    simp only [Orchestrator.hitsFrom, h.hit?, LookedUp.hitsFrom h calls]

theorem exec_record {s : Sys W U E} (h : s.self.replay.Quiet) (kind : EventKind)
    (payload : List (Str × Json)) :
    ∃ s', (record kind payload : RunM W U E Unit).exec s = (.ok (), s') ∧ LookedUp s s' := by
  have hok := Replay.record_ok h { kind := kind, payload := .ofFields payload } s.env
  refine ⟨_, Prod.ext hok rfl, { LookedUp.refl s with
    env := fun view hs => Replay.record_view hs _ _ }⟩

theorem exec_lookup_call {s : Sys W U E} (h : s.self.replay.Quiet) (call : ToolCall) :
    ∃ s', (lookup_call (callView s.self.registry call)).exec s = (.ok (s.self.hit? call), s')
      ∧ LookedUp s s' := by
  obtain ⟨s₁, hexec, hl, hquiet⟩ : ∃ s₁, (lookup_call (callView s.self.registry call)).exec s
      = (do
          if (s.self.hit? call).isSome then
            record .CacheHit
              [("tool", .string (callView s.self.registry call).name),
                ("key", .string (cache_key (callView s.self.registry call)))]
          pure (s.self.hit? call) : RunM W U E (Option Json)).exec s₁
      ∧ LookedUp s s₁ ∧ s₁.self.replay.Quiet := by
    unfold lookup_call
    simp only [Prog.exec_bind, Prog.exec_step, exec_modifySelf]
    exact ⟨_, rfl, { LookedUp.refl s with
      entries := Cache.get_entries _ _ _
      answer := fun key deps => Cache.answer_congr
        (Cache.get_entries _ _ _) (Cache.get_dep_versions _ _ _) [] key deps }, h⟩
  rw [hexec]
  cases s.self.hit? call with
  | none => exact ⟨s₁, rfl, hl⟩
  | some output =>
    obtain ⟨s₂, h₂, hl₂⟩ := exec_record hquiet .CacheHit
      [("tool", .string (callView s.self.registry call).name),
        ("key", .string (cache_key (callView s.self.registry call)))]
    refine ⟨s₂, ?_, hl.trans hl₂⟩
    simp only [Option.isSome_some, if_true, Prog.exec_bind, h₂]
    rfl

theorem exec_lookup_calls {registry : ToolRegistry W U} :
    ∀ (calls : List ToolCall) (i : ℕ) (s : Sys W U E), s.self.registry = registry →
      s.self.replay.Quiet →
      ∃ s', (lookup_calls i (calls.zip (build_call_views registry calls))).exec s
          = (.ok (s.self.misses calls, s.self.hitsFrom i calls), s') ∧ LookedUp s s'
  | [], i, s, _, _ => ⟨s, rfl, LookedUp.refl s⟩
  | call :: calls, i, s, rfl, hquiet => by
    obtain ⟨s₁, h₁, hl₁⟩ := exec_lookup_call hquiet call
    obtain ⟨s₂, h₂, hl₂⟩ := exec_lookup_calls calls (i + 1) s₁ hl₁.registry
      (fun sink hsink => hquiet sink (hl₁.sinks ▸ hsink))
    have hzip : (call :: calls).zip (build_call_views s.self.registry (call :: calls))
        = (call, callView s.self.registry call)
          :: calls.zip (build_call_views s.self.registry calls) := rfl
    refine ⟨s₂, ?_, hl₁.trans hl₂⟩
    rw [hzip, lookup_calls, Prog.exec_bind, h₁]
    simp only [Prog.exec_bind, h₂, hl₁.misses, hl₁.hitsFrom]
    simp only [misses, List.filter_cons, hitsFrom]
    cases s.self.hit? call <;> rfl

/-- An event that is recorded changes nothing that a lookup goes by. -/
theorem lookedUp_record {kind : EventKind} {payload : List (Str × Json)} {s s' : Sys W U E}
    {r : Except Exn Unit} (h : (record kind payload).exec s = (r, s')) : LookedUp s s' := by
  obtain rfl : _ = s' := congrArg Prod.snd h
  exact { LookedUp.refl s with env := fun view hs => Replay.record_view hs _ _ }

/-- A lookup that returns has found what the cache has for the call. -/
theorem lookup_call_eq_ok {s s' : Sys W U E} {call : ToolCall} {cached : Option Json}
    (h : (lookup_call (callView s.self.registry call)).exec s = (.ok cached, s')) :
    cached = s.self.hit? call ∧ LookedUp s s' := by
  unfold lookup_call at h
  obtain ⟨found, s₁, h₁, hrest₁⟩ := Prog.exec_bind_eq_ok.1 h
  obtain ⟨_, s₂, h₂, hrest₂⟩ := Prog.exec_bind_eq_ok.1 hrest₁
  rw [Prog.exec_step] at h₁
  obtain ⟨hfound, hs₁⟩ := Prod.mk.inj h₁
  obtain rfl : s.self.hit? call = found := Except.ok.inj hfound
  have hl : LookedUp s s₂ := by
    obtain rfl := (Prod.mk.inj ((exec_modifySelf _ _).symm.trans h₂)).2
    subst hs₁
    exact { LookedUp.refl s with
      entries := Cache.get_entries _ _ _
      answer := fun key deps => Cache.answer_congr
        (Cache.get_entries _ _ _) (Cache.get_dep_versions _ _ _) [] key deps }
  cases hhit : s.self.hit? call with
  | none =>
    rw [hhit] at hrest₂
    cases hrest₂
    exact ⟨rfl, hl⟩
  | some output =>
    rw [hhit] at hrest₂
    obtain ⟨_, s₃, h₃, hrest₃⟩ := Prog.exec_bind_eq_ok.1 hrest₂
    cases hrest₃
    exact ⟨rfl, hl.trans (lookedUp_record h₃)⟩

/-- The lookup loop looks the first call up and goes on with the others. -/
theorem lookup_calls_cons_eq_ok {registry : ToolRegistry W U} {call : ToolCall}
    {calls : List ToolCall} {i : ℕ} {s s' : Sys W U E} {found : List ToolCall × List (ℕ × Json)}
    (h : (lookup_calls i ((call :: calls).zip (build_call_views registry (call :: calls)))).exec s
      = (.ok found, s')) :
    ∃ cached s₁ rest, (lookup_call (callView registry call)).exec s = (.ok cached, s₁)
      ∧ (lookup_calls (i + 1) (calls.zip (build_call_views registry calls))).exec s₁
        = (.ok rest, s')
      ∧ found = cached.elim (call :: rest.1, rest.2) fun output =>
        (rest.1, (i, output) :: rest.2) := by
  have hzip : (call :: calls).zip (build_call_views registry (call :: calls))
      = (call, callView registry call) :: calls.zip (build_call_views registry calls) := rfl
  rw [hzip, lookup_calls] at h
  obtain ⟨cached, s₁, h₁, h⟩ := Prog.exec_bind_eq_ok.1 h
  obtain ⟨rest, s₂, h₂, h⟩ := Prog.exec_bind_eq_ok.1 h
  cases cached <;> cases h <;> exact ⟨_, s₁, rest, h₁, h₂, rfl⟩

theorem lookup_calls_eq_ok {registry : ToolRegistry W U} :
    ∀ {calls : List ToolCall} {i : ℕ} {s s' : Sys W U E}
      {found : List ToolCall × List (ℕ × Json)}, s.self.registry = registry →
      (lookup_calls i (calls.zip (build_call_views registry calls))).exec s = (.ok found, s') →
      found = (s.self.misses calls, s.self.hitsFrom i calls) ∧ LookedUp s s'
  | [], i, s, s', found, _, h => by
    cases h
    exact ⟨rfl, LookedUp.refl s⟩
  | call :: calls, i, s, s', found, rfl, h => by
    obtain ⟨cached, s₁, rest, h₁, h₂, rfl⟩ := lookup_calls_cons_eq_ok h
    obtain ⟨rfl, hl₁⟩ := lookup_call_eq_ok h₁
    obtain ⟨rfl, hl₂⟩ := lookup_calls_eq_ok hl₁.registry h₂
    refine ⟨?_, hl₁.trans hl₂⟩
    simp only [hl₁.misses, hl₁.hitsFrom]
    simp only [misses, List.filter_cons, hitsFrom]
    cases s.self.hit? call <;> rfl

/-- The indices of the calls that the cache does not answer. -/
def missIndices (self : Orchestrator W U E) (calls : List ToolCall) : List ℕ :=
  (List.range calls.length).filter fun i => (self.hit? (calls.getD i {})).isNone

theorem missIndices_nodup (calls : List ToolCall) : (self.missIndices calls).Nodup :=
  List.nodup_range.filter _

theorem mem_missIndices {calls : List ToolCall} {i : ℕ} :
    i ∈ self.missIndices calls ↔ i < calls.length ∧ self.hit? (calls.getD i {}) = none := by
  simp [missIndices]

theorem misses_eq (calls : List ToolCall) :
    self.misses calls = (self.missIndices calls).map fun i => calls.getD i {} := by
  have hcalls : calls = (List.range calls.length).map fun i => calls.getD i {} := by
    refine List.ext_getElem (by simp) fun i hi _ => ?_
    simp [hi]
  unfold misses missIndices
  conv_lhs => rw [hcalls]
  rw [List.filter_map]
  rfl

theorem originalIndex_getD {calls : List ToolCall} (hnd : (calls.map (·.ordinal)).Nodup) {i : ℕ}
    (hi : i < calls.length) : originalIndex calls (calls.getD i {}).ordinal = i := by
  have hget : calls.getD i {} = calls[i] := by simp [hi]
  have hfind : calls.findIdx? (fun c => c.ordinal == calls[i].ordinal) = some i := by
    rw [List.findIdx?_eq_some_iff_getElem]
    refine ⟨hi, by simp, fun j hji => ?_⟩
    have hne := List.pairwise_iff_getElem.1 hnd j i (by simp; omega) (by simpa using hi) hji
    simpa using hne
  unfold originalIndex
  rw [hget, hfind]
  rfl

section Spliced

variable {calls : List ToolCall} {executed : List ToolExecutionRecord}

/-- The executed records are written at the indices of the misses. -/
theorem placed_eq (hnd : (calls.map (·.ordinal)).Nodup) :
    ((self.misses calls).zip executed).map
        (fun pe => (originalIndex calls pe.1.ordinal, pe.2))
      = (self.missIndices calls).zip executed := by
  rw [misses_eq, List.zip_map_left, List.map_map]
  refine (List.map_congr_left fun x hx => ?_).trans (List.map_id _)
  have hi := (mem_missIndices.1 (List.of_mem_zip hx).1).1
  exact Prod.ext (originalIndex_getD hnd hi) rfl

/-- The splice as two rounds of writing at indices. -/
theorem splice_eq (pending : List ToolCall) (hits : List (ℕ × Json)) :
    splice calls pending executed hits
      = (hits.map fun hit => (hit.1, hitRecord (calls.getD hit.1 {}) hit.2)).foldl
        (fun records u => records.set u.1 u.2)
        (((pending.zip executed).map
            fun pe => (originalIndex calls pe.1.ordinal, pe.2)).foldl
          (fun records u => records.set u.1 u.2) (List.replicate calls.length {})) := by
  simp only [splice, List.foldl_map]

/-- A record is an empty one, an executed one or that of a hit. -/
theorem mem_splice {pending : List ToolCall} {hits : List (ℕ × Json)} {r : ToolExecutionRecord}
    (hr : r ∈ splice calls pending executed hits) :
    r = {} ∨ r ∈ executed ∨ ∃ hit ∈ hits, r = hitRecord (calls.getD hit.1 {}) hit.2 := by
  rw [splice_eq] at hr
  rcases mem_foldl_set hr with hr | ⟨u, hu, rfl⟩
  · rcases mem_foldl_set hr with hr | ⟨u, hu, rfl⟩
    · exact .inl (List.eq_of_mem_replicate hr)
    · obtain ⟨pe, hpe, rfl⟩ := List.mem_map.1 hu
      exact .inr (.inl (List.of_mem_zip hpe).2)
  · obtain ⟨hit, hhit, rfl⟩ := List.mem_map.1 hu
    exact .inr (.inr ⟨hit, hhit, rfl⟩)

/-- The executor is called unless there is nothing to execute. -/
theorem execute_pending_eq_ok {M : Machine W U} {pending : List ToolCall} {s s' : Sys W U E}
    (h : (execute_pending M pending).exec s = (.ok executed, s')) :
    pending = [] ∧ executed = [] ∧ s' = s
      ∨ ∃ ex' w', s.self.executor.execute M.scheduler M.platform s.self.registry pending
          s.self.tool_ctx s.world = (.ok executed, ex', w')
        ∧ s' = { s with self := { s.self with executor := ex' }, world := w' } := by
  unfold execute_pending at h
  split_ifs at h with hempty
  · cases h
    exact .inl ⟨List.isEmpty_iff.1 hempty, rfl, rfl⟩
  · rw [Prog.exec_of] at h
    dsimp only at h
    rcases hexec : s.self.executor.execute M.scheduler M.platform s.self.registry pending
      s.self.tool_ctx s.world with ⟨r, ex', w'⟩
    rw [hexec] at h
    obtain ⟨rfl, rfl⟩ := Prod.mk.inj h
    exact .inr ⟨ex', w', rfl, rfl⟩

/-- What every worker's record satisfies, the executed records satisfy. -/
theorem forall_pending {M : Machine W U} {pending : List ToolCall} {s s' : Sys W U E}
    {Q : ToolExecutionRecord → Prop}
    (hQ : ∀ call ctx, (call ∈ pending ∨ call = {}) →
      (invoke_one s.self.registry call ctx).run.Returns fun out => ∀ r, out = .ok r → Q r)
    (h : (execute_pending M pending).exec s = (.ok executed, s')) : ∀ r ∈ executed, Q r := by
  rcases execute_pending_eq_ok h with ⟨-, rfl, -⟩ | ⟨ex', w', hexec, -⟩
  · exact nofun
  · refine ToolExecutor.forall_execute _ _ _ _ _ (fun i w => hQ _ _ ?_) hexec
    rw [List.getD_eq_getElem?_getD]
    rcases hi : pending[i]? with _ | call
    · exact .inr rfl
    · exact .inl (List.mem_of_getElem? hi)

theorem splice_length (pending : List ToolCall) (hits : List (ℕ × Json)) :
    (splice calls pending executed hits).length = calls.length := by
  rw [splice_eq, length_foldl_set, length_foldl_set, List.length_replicate]

/-- The spliced records, the cached ones over the executed ones. -/
theorem splice_getElem? (hnd : (calls.map (·.ordinal)).Nodup)
    (hlen : executed.length = (self.missIndices calls).length) {i : ℕ} (hi : i < calls.length) :
    (splice calls (self.misses calls) executed (self.hitsFrom 0 calls))[i]?
      = some ((((self.hitsFrom 0 calls).map fun hit =>
          (hit.1, hitRecord (calls.getD hit.1 {}) hit.2)).lookup i).getD
        ((((self.missIndices calls).zip executed).lookup i).getD {})) := by
  have hplaced : (((self.missIndices calls).zip executed).map Prod.fst).Nodup := by
    rw [List.map_fst_zip hlen.ge]
    exact missIndices_nodup calls
  have hhits : (((self.hitsFrom 0 calls).map fun hit =>
      (hit.1, hitRecord (calls.getD hit.1 {}) hit.2)).map Prod.fst).Nodup := by
    rw [List.map_map]
    exact hitsFrom_nodup calls 0
  rw [splice_eq, placed_eq hnd, getElem?_foldl_set _ _ hhits, getElem?_foldl_set _ _ hplaced,
    List.getElem?_replicate, if_pos hi]
  rfl

theorem splice_hit (hnd : (calls.map (·.ordinal)).Nodup)
    (hlen : executed.length = (self.missIndices calls).length) {i : ℕ} (hi : i < calls.length)
    {output : Json} (hhit : self.hit? (calls.getD i {}) = some output) :
    (splice calls (self.misses calls) executed (self.hitsFrom 0 calls))[i]?
      = some (hitRecord (calls.getD i {}) output) := by
  have hmem : (i, output) ∈ self.hitsFrom 0 calls :=
    mem_hitsFrom.2 ⟨i, (Nat.zero_add i).symm, hi, by simpa [hi] using hhit⟩
  have hlookup : ((self.hitsFrom 0 calls).map fun hit =>
      (hit.1, hitRecord (calls.getD hit.1 {}) hit.2)).lookup i
      = some (hitRecord (calls.getD i {}) output) := by
    refine lookup_of_mem ?_ (List.mem_map_of_mem hmem)
    rw [List.map_map]
    exact hitsFrom_nodup calls 0
  rw [splice_getElem? hnd hlen hi, hlookup]
  rfl

theorem splice_miss (hnd : (calls.map (·.ordinal)).Nodup)
    (hlen : executed.length = (self.missIndices calls).length) {k : ℕ}
    (hk : k < (self.missIndices calls).length) :
    (splice calls (self.misses calls) executed
        (self.hitsFrom 0 calls))[(self.missIndices calls)[k]]? = executed[k]? := by
  obtain ⟨hi, hmiss⟩ := mem_missIndices.1 (List.getElem_mem hk)
  have hnone : ((self.hitsFrom 0 calls).map fun hit =>
      (hit.1, hitRecord (calls.getD hit.1 {}) hit.2)).lookup (self.missIndices calls)[k]
      = none := by
    rw [List.lookup_eq_none_iff]
    intro x hx
    obtain ⟨⟨j, output⟩, hj, rfl⟩ := List.mem_map.1 hx
    obtain ⟨m, rfl, hm, he⟩ := mem_hitsFrom.1 hj
    simp only [Nat.zero_add, bne_iff_ne, ne_eq]
    rintro rfl
    simp [hi, he] at hmiss
  have hke : k < executed.length := hlen ▸ hk
  have hsome : ((self.missIndices calls).zip executed).lookup (self.missIndices calls)[k]
      = some executed[k] := by
    refine lookup_of_mem ?_ (List.mem_iff_getElem.2 ⟨k, by simp [hlen, hk], by simp⟩)
    rw [List.map_fst_zip hlen.ge]
    exact missIndices_nodup calls
  rw [splice_getElem? hnd hlen hi, hnone, hsome, List.getElem?_eq_getElem hke]
  rfl

/-- The spliced records are those of the calls if the executed ones are those of the misses. -/
theorem splice_isOf_iff (hnd : (calls.map (·.ordinal)).Nodup)
    (hlen : executed.length = (self.missIndices calls).length) :
    List.Forall₂ (fun call r => r.IsOf call) calls
        (splice calls (self.misses calls) executed (self.hitsFrom 0 calls))
      ↔ List.Forall₂ (fun call r => r.IsOf call) (self.misses calls) executed := by
  have hlength : (splice calls (self.misses calls) executed (self.hitsFrom 0 calls)).length
      = calls.length := splice_length _ _
  have hmisses : (self.misses calls).length = (self.missIndices calls).length := by
    rw [misses_eq, List.length_map]
  rw [List.forall₂_iff_get, List.forall₂_iff_get]
  constructor
  · rintro ⟨-, h⟩
    refine ⟨hmisses.trans hlen.symm, fun k hk hk' => ?_⟩
    have hkm : k < (self.missIndices calls).length := hmisses ▸ hk
    have hi := (mem_missIndices.1 (List.getElem_mem hkm)).1
    have hspliced := splice_miss hnd hlen hkm
    rw [List.getElem?_eq_getElem hk', List.getElem?_eq_getElem (hlength ▸ hi),
      Option.some.injEq] at hspliced
    have := h _ hi (hlength ▸ hi)
    simp only [List.get_eq_getElem] at this ⊢
    rw [hspliced] at this
    simpa [misses_eq, hi] using this
  · rintro ⟨-, h⟩
    refine ⟨hlength.symm, fun i hi hi' => ?_⟩
    cases hhit : self.hit? (calls.getD i {}) with
    | some output =>
      have hspliced := splice_hit hnd hlen hi hhit
      rw [List.getElem?_eq_getElem hi', Option.some.injEq] at hspliced
      simp only [List.get_eq_getElem]
      rw [hspliced]
      simp [ToolExecutionRecord.IsOf, hitRecord, hi]
    | none =>
      obtain ⟨k, hk, rfl⟩ := List.mem_iff_getElem.1 (mem_missIndices.2 ⟨hi, hhit⟩)
      have hke : k < executed.length := hlen ▸ hk
      have hspliced := splice_miss hnd hlen hk
      rw [List.getElem?_eq_getElem hi', List.getElem?_eq_getElem hke,
        Option.some.injEq] at hspliced
      have := h k (hmisses ▸ hk) hke
      simp only [List.get_eq_getElem] at this ⊢
      rw [hspliced]
      simpa [misses_eq, hi] using this

end Spliced

/-! ## The order of the records -/

/-- The calls of a graph come in order of depth, and each conflicts with an earlier one at each
depth below its own; the depth of a call is the length of the longest chain of conflicting calls,
in order of emission, that ends at it. -/
def InOrderOfDepth (G : DependencyGraph) : Prop :=
  (∀ j < G.size, ∀ i ≤ j, FirstFit.depth G.Conflict i ≤ FirstFit.depth G.Conflict j)
    ∧ FirstFit.Stepped G.Conflict G.size

theorem groupsOf_in_order_iff (registry : ToolRegistry W U) (calls : List ToolCall)
    (ex : ToolExecutor) :
    (ToolExecutor.groupsOf registry calls ex).flatten = List.range calls.length
      ↔ ex.parallel_safe = false ∨ InOrderOfDepth (callGraph registry calls) := by
  have hdepth := FirstFit.flatten_eq_range_iff_depth
    (R := (callGraph registry calls).Conflict) (callGraph registry calls).size
  rcases Nat.eq_zero_or_pos calls.length with h0 | hpos
  · have hperm := ToolExecutor.groupsOf_perm registry calls ex
    rw [h0] at hperm
    refine iff_of_true ?_ (.inr (hdepth.1 ?_))
    · rw [h0]
      exact List.perm_nil.1 hperm
    · rw [callGraph_size, h0]
      rfl
  · unfold ToolExecutor.groupsOf
    rw [← callGraph_size registry calls, executionGroups_eq (by rwa [callGraph_size])]
    cases ex.parallel_safe with
    | false => simp
    | true =>
      rw [if_pos rfl, DependencyGraph.schedule_eq_classes, hdepth]
      simp [InOrderOfDepth]

/-- Records that come in the order of the groups are those of the calls in list order exactly when
the two orders are the same. -/
theorem isOf_iff_order {calls : List ToolCall} (hnd : (calls.map (·.ordinal)).Nodup)
    {order : List ℕ} (hperm : order.Perm (List.range calls.length))
    {executed : List ToolExecutionRecord}
    (hof : List.Forall₂ (fun i r => r.IsOf (calls.getD i {})) order executed) :
    List.Forall₂ (fun call r => r.IsOf call) calls executed
      ↔ order = List.range calls.length := by
  have hlen : order.length = calls.length := by simpa using hperm.length_eq
  obtain ⟨hlen', hof⟩ := List.forall₂_iff_get.1 hof
  rw [List.forall₂_iff_get]
  constructor
  · rintro ⟨-, h⟩
    refine List.ext_getElem (by simp [hlen]) fun k hk hk' => ?_
    rw [List.length_range] at hk'
    have hok : order[k] < calls.length :=
      List.mem_range.1 (hperm.subset (List.getElem_mem hk))
    have h1 := (h k hk' (hlen' ▸ hk)).1
    have h2 := (hof k hk (hlen' ▸ hk)).1
    rw [h1] at h2
    have hord : (calls.map (·.ordinal))[k]? = (calls.map (·.ordinal))[order[k]]? := by
      simpa [hok, hk'] using h2
    rw [List.getElem_range]
    exact ((List.getElem?_inj (by simpa using hk') hnd).1 hord).symm
  · rintro rfl
    refine ⟨by rw [← hlen', List.length_range], fun k hk hk' => ?_⟩
    have := hof k (by simpa using hk) hk'
    simpa [hk] using this

/-- The event that `run` records for a record. -/
def IsFinished (rec : ToolExecutionRecord) (e : Event) : Prop :=
  e.kind = .ToolFinished
    ∧ e.payload = .ofFields [("tool", .string rec.tool_name), ("ok", .boolean rec.result.ok)]

/-- The message that tells the model of a record. -/
def IsMessage (T : JsonText) (rec : ToolExecutionRecord) (message : Message) : Prop :=
  ∃ body, resultBody T rec = .ok body ∧ message = toolMessage rec body

/-- The loop over the records adds one event for each, in their order, and if it comes to its end
one message for each. -/
structure Reported (T : JsonText) (records : List ToolExecutionRecord) (messages : Messages)
    (s : Sys W U E) (run : Except Exn (TurnContext × Messages) × Sys W U E) : Prop where
  events : ∃ es, run.2.self.replay.events = s.self.replay.events ++ es
    ∧ ∃ k ≤ records.length, List.Forall₂ IsFinished (records.take k) es
      ∧ ∀ v, run.1 = .ok v → k = records.length
  messages : ∀ v, run.1 = .ok v →
    ∃ told, v.2 = messages ++ told ∧ List.Forall₂ (IsMessage T) records told

theorem replay_cache_result (views : List CallView) (rec : ToolExecutionRecord)
    (self : Orchestrator W U E) : (cache_result views rec self).replay = self.replay := by
  unfold cache_result
  split_ifs
  · split <;> rfl
  · rfl

theorem finished_record_result {M : Machine W U} {chosen_tier : Tier} {views : List CallView}
    {rec : ToolExecutionRecord} {s s' : Sys W U E} {r : Except Exn (Str × Message)}
    (h : (record_result M chosen_tier views rec).exec s = (r, s')) :
    (∃ e, s'.self.replay.events = s.self.replay.events ++ [e] ∧ IsFinished rec e)
      ∧ ∀ v, r = .ok v → IsMessage M.text rec v.2 := by
  unfold record_result at h
  rw [Prog.exec_bind, exec_modifySelf] at h
  dsimp only at h
  rw [Prog.exec_bind] at h
  rcases hrec : (record .ToolFinished
      [("tool", .string rec.tool_name), ("ok", .boolean rec.result.ok)]).exec
    { s with self := { s.self with
      telemetry := s.self.telemetry.record_tool_call rec.result.ok } } with ⟨r₁, s₁⟩
  -- the event is stored before an observer can throw
  have hevents : ∃ e, s₁.self.replay.events = s.self.replay.events ++ [e] ∧ IsFinished rec e := by
    obtain rfl : _ = s₁ := congrArg Prod.snd hrec
    exact ⟨_, rfl, rfl, rfl⟩
  rw [hrec] at h
  rcases r₁ with e | _
  · cases h
    exact ⟨hevents, fun v hv => by cases hv⟩
  · simp only [Prog.exec_bind, exec_modifySelf, Prog.exec_ofExcept] at h
    have hreplay : (cache_result views rec (if rec.result.ok = true then s₁.self
        else record_failure chosen_tier s₁.self)).replay = s₁.self.replay := by
      rw [replay_cache_result]
      split_ifs <;> rfl
    rcases hbody : resultBody M.text rec with e | body
    · rw [hbody] at h
      cases h
      exact ⟨by rwa [hreplay], fun v hv => by cases hv⟩
    · rw [hbody] at h
      cases h
      refine ⟨?_, fun v hv => ?_⟩
      · show ∃ e, (cache_result views rec _).replay.events = _ ∧ _
        rwa [hreplay]
      · cases hv
        exact ⟨body, hbody, rfl⟩

theorem record_results_cons (M : Machine W U) (chosen_tier : Tier) (views : List CallView)
    (rec : ToolExecutionRecord) (records : List ToolExecutionRecord) (turn_ctx : TurnContext)
    (messages : Messages) :
    (record_results M chosen_tier views (rec :: records) turn_ctx messages : RunM W U E _)
      = record_result M chosen_tier views rec >>= fun told =>
        record_results M chosen_tier views records
          { turn_ctx with recent_tool_results := turn_ctx.recent_tool_results ++ [told.1] }
          (messages ++ [told.2]) :=
  rfl

variable (M : Machine W U) (chosen_tier : Tier) (views : List CallView) in
/-- Whatever the observers do, the records are reported in their order. -/
theorem reported_record_results :
    ∀ (records : List ToolExecutionRecord) (turn_ctx : TurnContext) (messages : Messages)
      (s : Sys W U E),
      Reported M.text records messages s
        ((record_results M chosen_tier views records turn_ctx messages).exec s)
  | [], turn_ctx, messages, s =>
    ⟨⟨[], (List.append_nil _).symm, 0, Nat.le_refl _, .nil, fun _ _ => rfl⟩, fun v hv => by
      cases hv
      exact ⟨[], (List.append_nil _).symm, .nil⟩⟩
  | rec :: records, turn_ctx, messages, s => by
    rw [record_results_cons, Prog.exec_bind]
    rcases hrec : (record_result M chosen_tier views rec).exec s with ⟨e | ⟨fact_id, message⟩, s₁⟩
    · obtain ⟨⟨e, hevents, he⟩, -⟩ := finished_record_result hrec
      exact ⟨⟨[e], hevents, 1, by simp, .cons he .nil, fun v hv => by cases hv⟩,
        fun v hv => by cases hv⟩
    · obtain ⟨⟨e, hevents, he⟩, hmessage⟩ := finished_record_result hrec
      obtain ⟨⟨es, hrest, k, hk, hes, hend⟩, htold⟩ := reported_record_results records
        { turn_ctx with recent_tool_results := turn_ctx.recent_tool_results ++ [fact_id] }
        (messages ++ [message]) s₁
      refine ⟨⟨e :: es, ?_, k + 1, Nat.succ_le_succ hk, .cons he hes, fun v hv => ?_⟩,
        fun v hv => ?_⟩
      · rw [hrest, hevents, List.append_assoc]
        rfl
      · rw [hend v hv, List.length_cons]
      · obtain ⟨told, hv, htold⟩ := htold v hv
        exact ⟨message :: told, by rw [hv, List.append_assoc]; rfl,
          .cons (hmessage _ rfl) htold⟩

/-- The record at every index is that of the call at that index, and the events and messages of the
turn are those of these records in their order, exactly when the batch is not run in groups or the
misses come in order of depth. -/
theorem run_calls_in_order_iff (M : Machine W U) (s : Sys W U E) (raw : Json)
    (calls : List ToolCall) (hcalls : extract_tool_calls M.text raw = .ok calls)
    (hreg : ∀ call ∈ calls, s.self.registry.ReturnsOn call) (hquiet : s.self.replay.Quiet)
    (chosen_tier : Tier) (turn_ctx : TurnContext) (messages : Messages) :
    let views := build_call_views s.self.registry calls
    (∃ records s', (run_calls M calls views).exec s = (.ok records, s')
        ∧ List.Forall₂ (fun call r => r.IsOf call) calls records
        ∧ Reported M.text records messages s'
          ((record_results M chosen_tier views records turn_ctx messages).exec s'))
      ↔ s.self.executor.parallel_safe = false
        ∨ InOrderOfDepth (callGraph s.self.registry (s.self.misses calls)) := by
  intro views
  have hnd := extract_tool_calls_nodup hcalls
  obtain ⟨s₁, hlookup, hl⟩ := exec_lookup_calls calls 0 s rfl hquiet
  obtain ⟨executed, ex', w', hexec, hof⟩ := ToolExecutor.execute_returns M.scheduler M.platform
    s.self.registry (s.self.misses calls) s₁.self.tool_ctx
    (fun call hcall => hreg call (List.mem_filter.1 hcall).1) s.self.executor s₁.world
  have hperm := ToolExecutor.groupsOf_perm s.self.registry (s.self.misses calls) s.self.executor
  have hpending : ∃ s₂, (execute_pending M (s.self.misses calls)).exec s₁
      = (.ok executed, s₂) := by
    unfold execute_pending
    split_ifs with he
    · rw [List.isEmpty_iff] at he
      rw [he] at hof hperm
      rw [List.perm_nil.1 hperm] at hof
      cases hof
      exact ⟨s₁, rfl⟩
    · refine ⟨{ s₁ with self := { s₁.self with executor := ex' }, world := w' }, ?_⟩
      rw [← hl.registry, ← hl.executor] at hexec
      simp only [Prog.exec_of, hexec]
  obtain ⟨s₂, hpending⟩ := hpending
  have hrun : ∃ s₃, (run_calls M calls (build_call_views s.self.registry calls)).exec s
      = (.ok (splice calls (s.self.misses calls) executed (s.self.hitsFrom 0 calls)), s₃) := by
    unfold run_calls
    simp only [Prog.exec_bind, hlookup, hpending]
    exact ⟨_, rfl⟩
  obtain ⟨s₃, hrun⟩ := hrun
  have hlen : executed.length = (s.self.missIndices calls).length := by
    rw [← hof.length_eq, hperm.length_eq, List.length_range, misses_eq, List.length_map]
  have hndm : ((s.self.misses calls).map (·.ordinal)).Nodup :=
    hnd.sublist ((List.filter_sublist).map _)
  rw [← groupsOf_in_order_iff, ← isOf_iff_order hndm hperm hof, ← splice_isOf_iff hnd hlen, hrun]
  constructor
  · rintro ⟨records, s', he, h, -⟩
    obtain rfl := Except.ok.inj (Prod.mk.inj he).1
    exact h
  · exact fun h => ⟨_, _, rfl, h, reported_record_results _ _ _ _ _ _ _⟩

/-! ## A turn whose records change places -/

/-- A `read_file` entry of a response. -/
def readEntry (arguments : Str) : Json :=
  .ofFields [("name", .string "read_file"), ("arguments", .string arguments)]

/-- A response that reads `a` twice and then `b`. -/
def rereading : Json :=
  .ofFields
    [("tool_calls", .array
      [readEntry "\x7b\"path\":\"a\"\x7d", readEntry "\x7b\"path\":\"a\"\x7d",
        readEntry "\x7b\"path\":\"b\"\x7d"])]

def rereadingCalls : List ToolCall :=
  [{ name := "read_file", arguments := "\x7b\"path\":\"a\"\x7d", ordinal := 0 },
    { name := "read_file", arguments := "\x7b\"path\":\"a\"\x7d", ordinal := 1 },
    { name := "read_file", arguments := "\x7b\"path\":\"b\"\x7d", ordinal := 2 }]

/-- A flat file system with the built-in tools, on which nothing is interleaved. -/
def rereadingMachine : Machine FlatFs Empty where
  text := .ofTable
    [("\x7b\"path\":\"a\"\x7d", .ofFields [("path", .string "a")]),
      ("\x7b\"path\":\"b\"\x7d", .ofFields [("path", .string "b")])]
  platform := flatPlatform fun _ _ => []
  scheduler := .inOrder

def rereadingStart (parallel_safe : Bool) : Sys FlatFs Empty Unit where
  self :=
    { options := {}
      context := .new 8192
      registry := register_builtin_tools rereadingMachine.text rereadingMachine.platform {} none
      executor := { parallel_safe := parallel_safe }
      tool_ctx := some .basic }
  world := fun _ => none
  env := ()

theorem rereading_extracted :
    extract_tool_calls rereadingMachine.text rereading = .ok rereadingCalls := by decide

/-- With `parallel_safe` off, the three reads keep their places. -/
theorem rereading_in_order :
    let views := build_call_views (rereadingStart false).self.registry rereadingCalls
    ∃ records s', (run_calls rereadingMachine rereadingCalls views).exec (rereadingStart false)
        = (.ok records, s')
      ∧ List.Forall₂ (fun call r => r.IsOf call) rereadingCalls records
      ∧ Reported rereadingMachine.text records [] s'
        ((record_results rereadingMachine .Small views records {} []).exec s') := by
  have hfile : ∀ call ∈ rereadingCalls, ∃ op, IsFileOp rereadingMachine.text call op := by
    intro call hcall
    simp only [rereadingCalls, List.mem_cons, List.not_mem_nil, or_false] at hcall
    rcases hcall with rfl | rfl | rfl
    · exact ⟨.read "a", .read rfl rfl rfl (by decide)⟩
    · exact ⟨.read "a", .read rfl rfl rfl (by decide)⟩
    · exact ⟨.read "b", .read rfl rfl rfl (by decide)⟩
  refine (run_calls_in_order_iff rereadingMachine (rereadingStart false) rereading rereadingCalls
    rereading_extracted (fun call hcall => ?_) (fun sink hsink => absurd hsink
      List.not_mem_nil) .Small {} []).2 (.inl rfl)
  obtain ⟨op, hop⟩ := hfile call hcall
  exact hop.returnsOn _ _ _

/-- The second read of `a` and the read of `b` have changed places. -/
theorem records_change_places :
    extract_tool_calls rereadingMachine.text rereading = .ok rereadingCalls
      ∧ (((run_calls rereadingMachine rereadingCalls
          (build_call_views (rereadingStart true).self.registry rereadingCalls)).exec
            (rereadingStart true)).1.map fun records => records.map (·.ordinal))
        = .ok [0, 2, 1] :=
  ⟨rereading_extracted, by decide⟩

end Orchestrator

end Praxis
