import Praxis.Metrics
import Mathlib.Data.List.Induction
import Mathlib.Tactic.Ring

/-!
# What the telemetry reports

However the calls are mixed, every call counts where it belongs and nowhere else
(`account_after`). The table of modules has one entry for each name, in the order in which the names
were first recorded, with the number of its calls, their total time and the last time.
-/

namespace Praxis

namespace Metrics

/-! ## The table of modules -/

/-- A time recorded for a module. -/
abbrev ModuleCall := Str × ℚ

/-- The entry of a name after some calls. -/
def entryOf (calls : List ModuleCall) (name : Str) : ModuleMetrics :=
  let times := (calls.filter fun c => c.1 = name).map (·.2)
  { name := name
    invocations := .ofNat times.length
    total_ms := times.sum
    last_ms := times.getLast?.getD 0 }

/-- The names in the order of their first calls. -/
def namesOf (calls : List ModuleCall) : List Str := (calls.map (·.1)).eraseDups

theorem mem_namesOf {calls : List ModuleCall} {name : Str} :
    name ∈ namesOf calls ↔ name ∈ calls.map (·.1) := List.mem_eraseDups

theorem namesOf_snoc_of_mem {calls : List ModuleCall} {name : Str} (h : name ∈ namesOf calls)
    (ms : ℚ) : namesOf (calls ++ [(name, ms)]) = namesOf calls := by
  have hmem := mem_namesOf.1 h
  unfold namesOf
  rw [List.map_append, List.eraseDups_append, List.map_singleton, List.removeAll,
    List.filter_cons_of_neg (by simpa using hmem), List.filter_nil, List.eraseDups_nil,
    List.append_nil]

theorem namesOf_snoc {calls : List ModuleCall} {name : Str} (h : name ∉ namesOf calls) (ms : ℚ) :
    namesOf (calls ++ [(name, ms)]) = namesOf calls ++ [name] := by
  have hmem := mt mem_namesOf.2 h
  unfold namesOf
  rw [List.map_append, List.eraseDups_append, List.map_singleton, List.removeAll,
    List.filter_cons_of_pos (by simpa using hmem), List.filter_nil]
  rfl

theorem nodup_namesOf (calls : List ModuleCall) : (namesOf calls).Nodup := by
  induction calls using List.reverseRecOn with
  | nil => exact List.nodup_nil
  | append_singleton calls call ih =>
    obtain ⟨name, ms⟩ := call
    by_cases h : name ∈ namesOf calls
    · rwa [namesOf_snoc_of_mem h]
    · rw [namesOf_snoc h]
      refine List.nodup_append.2 ⟨ih, by simp, ?_⟩
      rintro a ha b hb rfl
      exact h (List.mem_singleton.1 hb ▸ ha)

theorem entryOf_snoc_of_ne {calls : List ModuleCall} {call : ModuleCall} {name : Str}
    (h : call.1 ≠ name) : entryOf (calls ++ [call]) name = entryOf calls name := by
  unfold entryOf
  rw [List.filter_append, List.filter_cons_of_neg (by simpa using h), List.filter_nil,
    List.append_nil]

theorem entryOf_snoc_self (calls : List ModuleCall) (name : Str) (ms : ℚ) :
    entryOf (calls ++ [(name, ms)]) name
      = { entryOf calls name with
        invocations := (entryOf calls name).invocations + 1
        total_ms := (entryOf calls name).total_ms + ms
        last_ms := ms } := by
  unfold entryOf
  rw [List.filter_append, List.filter_cons_of_pos (by simp), List.filter_nil, List.map_append]
  simp [UInt64.ofNat_add]

/-- What the loop makes of the entry of the name. -/
def again (ms : ℚ) (m : ModuleMetrics) : ModuleMetrics :=
  { m with invocations := m.invocations + 1, total_ms := m.total_ms + ms, last_ms := ms }

/-- Of a table with one entry for each name, the loop changes the entry of the name. -/
theorem entry_of_mem {name : Str} {ms : ℚ} {f g : Str → ModuleMetrics} (hf : ∀ n, (f n).name = n)
    (hsame : ∀ n, n ≠ name → g n = f n) (hself : g name = again ms (f name)) :
    ∀ {names : List Str}, names.Nodup → name ∈ names →
      record_module.entry name ms (names.map f) = names.map g
  | n :: names, hnodup, hmem => by
    obtain ⟨hn, hnodup⟩ := List.nodup_cons.1 hnodup
    rw [List.map_cons, List.map_cons, record_module.entry]
    by_cases heq : n = name
    · subst heq
      have hrest : names.map g = names.map f := List.map_congr_left fun k hk =>
        hsame k fun h => hn (h ▸ hk)
      rw [if_pos (hf n), hrest, hself]
      rfl
    · rw [if_neg (by rwa [hf]), hsame n heq, entry_of_mem hf hsame hself hnodup
        ((List.mem_cons.1 hmem).resolve_left (Ne.symm heq))]

theorem entry_of_not_mem {name : Str} {ms : ℚ} {f : Str → ModuleMetrics}
    (hf : ∀ n, (f n).name = n) : ∀ {names : List Str}, name ∉ names →
      record_module.entry name ms (names.map f)
        = names.map f ++ [{ name := name, invocations := 1, total_ms := ms, last_ms := ms }]
  | [], _ => rfl
  | n :: names, hmem => by
    have hne : (f n).name ≠ name := fun heq =>
      hmem (List.mem_cons.2 (.inl (heq.symm.trans (hf n))))
    rw [List.map_cons, record_module.entry, if_neg hne,
      entry_of_not_mem hf fun h => hmem (List.mem_cons_of_mem _ h)]
    rfl

/-- The table after some calls. -/
def tableOf (calls : List ModuleCall) : List ModuleMetrics := (namesOf calls).map (entryOf calls)

theorem entry_tableOf (calls : List ModuleCall) (name : Str) (ms : ℚ) :
    record_module.entry name ms (tableOf calls) = tableOf (calls ++ [(name, ms)]) := by
  have hsame : ∀ n, n ≠ name → entryOf (calls ++ [(name, ms)]) n = entryOf calls n :=
    fun n hn => entryOf_snoc_of_ne (Ne.symm hn)
  unfold tableOf
  by_cases h : name ∈ namesOf calls
  · rw [namesOf_snoc_of_mem h]
    exact entry_of_mem (fun _ => rfl) hsame (entryOf_snoc_self calls name ms)
      (nodup_namesOf calls) h
  · rw [namesOf_snoc h, List.map_append, entry_of_not_mem (fun _ => rfl) h]
    congr 1
    · exact List.map_congr_left fun n hn => (hsame n fun heq => h (heq ▸ hn)).symm
    · have hnone : calls.filter (fun c => c.1 = name) = [] := by
        refine List.filter_eq_nil_iff.2 fun c hc heq => h (mem_namesOf.2 ?_)
        exact List.mem_map.2 ⟨c, hc, by simpa using heq⟩
      rw [List.map_singleton, entryOf_snoc_self, entryOf, hnone]
      simp

theorem sum_entry (name : Str) (ms : ℚ) : ∀ modules : List ModuleMetrics,
    ((record_module.entry name ms modules).map (·.total_ms)).sum
      = (modules.map (·.total_ms)).sum + ms
  | [] => by simp [record_module.entry]
  | m :: modules => by
    have ih := sum_entry name ms modules
    rw [record_module.entry]
    split_ifs
    · simp only [List.map_cons, List.sum_cons]
      ring
    · simp only [List.map_cons, List.sum_cons, ih]
      ring

/-- Nothing is counted twice or left out of the total over all modules. -/
theorem sum_tableOf (calls : List ModuleCall) :
    ((tableOf calls).map (·.total_ms)).sum = (calls.map (·.2)).sum := by
  induction calls using List.reverseRecOn with
  | nil => rfl
  | append_singleton calls call ih =>
    obtain ⟨name, ms⟩ := call
    rw [← entry_tableOf, sum_entry, ih]
    simp

theorem total_module_ms_eq (t : Metrics) :
    t.total_module_ms = (t.modules.map (·.total_ms)).sum := by
  unfold total_module_ms
  rw [List.sum_eq_foldl, List.foldl_map]

/-! ## The object -/

namespace Op

def moduleCall? : Op → Option ModuleCall
  | .record_module name ms => some (name, ms)
  | _ => none

def tokens? : Op → Option (UInt32 × UInt32)
  | .record_token prompt completion => some (prompt, completion)
  | _ => none

def baseline? : Op → Option ℚ
  | .set_baseline_ms ms => some ms
  | _ => none

def wall? : Op → Option ℚ
  | .set_wall_clock_ms ms => some ms
  | _ => none

end Op

/-- What the calls amount to, kind by kind. -/
def accountOf (ops : List Op) : Metrics where
  counters :=
    { prompt_tokens := .ofNat ((ops.filterMap Op.tokens?).map fun t => t.1.toNat).sum
      completion_tokens := .ofNat ((ops.filterMap Op.tokens?).map fun t => t.2.toNat).sum
      cache_hits := .ofNat (ops.count (.record_cache_hit true))
      cache_misses := .ofNat (ops.count (.record_cache_hit false))
      tool_success := .ofNat (ops.count (.record_tool_call true))
      tool_failures := .ofNat (ops.count (.record_tool_call false)) }
  modules := tableOf (ops.filterMap Op.moduleCall?)
  baseline_ms := (ops.filterMap Op.baseline?).getLast?.getD 0
  wall_ms := (ops.filterMap Op.wall?).getLast?.getD 0

theorem step_accountOf (ops : List Op) (op : Op) :
    (accountOf ops).step op = accountOf (ops ++ [op]) := by
  unfold accountOf
  simp only [List.filterMap_append, List.filterMap_cons, List.filterMap_nil, List.count_append]
  cases op with
  | record_module name ms =>
    simp [step, record_module, Op.tokens?, Op.moduleCall?, Op.baseline?, Op.wall?, entry_tableOf]
  | record_token prompt completion =>
    simp [step, record_token, Telemetry.record_token, Op.tokens?, Op.moduleCall?, Op.baseline?,
      Op.wall?, UInt64.ofNat_add]
  | record_cache_hit hit =>
    cases hit <;> simp [step, record_cache_hit, Telemetry.record_cache_hit, Op.tokens?,
      Op.moduleCall?, Op.baseline?, Op.wall?, UInt64.ofNat_add]
  | record_tool_call success =>
    cases success <;> simp [step, record_tool_call, Telemetry.record_tool_call, Op.tokens?,
      Op.moduleCall?, Op.baseline?, Op.wall?, UInt64.ofNat_add]
  | set_baseline_ms ms =>
    simp [step, set_baseline_ms, Op.tokens?, Op.moduleCall?, Op.baseline?, Op.wall?]
  | set_wall_clock_ms ms =>
    simp [step, set_wall_clock_ms, Op.tokens?, Op.moduleCall?, Op.baseline?, Op.wall?]

/-- After any calls the counters, the table and the times are what the calls of each kind amount to,
whatever the kinds were mixed with, and the total over the modules is that of all recorded times. -/
theorem account_after (ops : List Op) :
    ops.foldl step {} = accountOf ops
      ∧ (ops.foldl step {}).total_module_ms = ((ops.filterMap Op.moduleCall?).map (·.2)).sum := by
  have hall : ops.foldl step {} = accountOf ops := by
    induction ops using List.reverseRecOn with
    | nil => rfl
    | append_singleton ops op ih =>
      rw [List.foldl_append, ih]
      exact step_accountOf ops op
  refine ⟨hall, ?_⟩
  rw [hall, total_module_ms_eq]
  exact sum_tableOf _

end Metrics

end Praxis
