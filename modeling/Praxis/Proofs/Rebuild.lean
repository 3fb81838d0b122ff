import Praxis.Proofs.FactStore

/-!
# The digest kept and the digest rebuilt

`record_tool_result` folds a fact into the digest when it is recorded, `rebuild_digest` folds all
recorded facts again later. The store never changes what it has, so both fold the same facts in the
same order: the digest has for each key the value of the last recorded fact with such a field
(`digest_eq_rebuilt`).
-/

namespace Praxis

variable {T : JsonText}

namespace HardKeys

theorem getElem?_foldl_insert (entries : List (Str × Str)) (keys : HardKeys) (key : Str) :
    (entries.foldl (fun m e => Std.TreeMap.insert m e.1 e.2) keys)[key]?
      = (entries.reverse.findSome? fun e => if e.1 = key then some e.2 else none).or
        keys[key]? := by
  rw [← Std.TreeMap.insertMany_list_equiv_foldl.getElem?_eq,
    Std.TreeMap.getElem?_insertMany_list, List.findSomeRev?_eq_findSome?_reverse]
  simp only [Std.LawfulEqCmp.compare_eq_iff_eq]

theorem getElem?_update (digest keys : HardKeys) (key : Str) :
    (HardKeys.update digest keys)[key]? = keys[key]?.or digest[key]? := by
  unfold HardKeys.update
  rw [← Std.TreeMap.insertMany_list_equiv_foldl.getElem?_eq]
  rcases hkey : keys[key]? with _ | v
  · refine Std.TreeMap.getElem?_insertMany_list_of_contains_eq_false ?_
    rw [← Bool.not_eq_true, List.contains_iff_mem, Std.TreeMap.map_fst_toList_eq_keys,
      Std.TreeMap.mem_keys, ← Std.TreeMap.isSome_getElem?_iff_mem, hkey]
    decide
  · refine Std.TreeMap.getElem?_insertMany_list_of_mem (Std.ReflCmp.compare_self)
      Std.TreeMap.distinct_keys_toList ?_
    exact Std.TreeMap.mem_toList_iff_getElem?_eq_some.2 hkey

end HardKeys

/-- The scalar field of that name of a fact's content, the last one if there are several. -/
def scalarField (T : JsonText) (content key : Str) : Option Str :=
  if content.isEmpty then none
  else
    match T.parse content with
    | some (.object fields) =>
      fields.reverse.findSome? fun f => if f.1 = key then scalarText f.2 else none
    | _ => none

theorem foldl_scalars {step : HardKeys → Str × Json → HardKeys}
    (hstep : ∀ keys f, step keys f = ((scalarText f.2).map (f.1, ·)).elim keys
      fun e => Std.TreeMap.insert keys e.1 e.2) (fields : List (Str × Json)) (keys : HardKeys) :
    fields.foldl step keys = (fields.filterMap fun f => (scalarText f.2).map (f.1, ·)).foldl
      (fun m e => Std.TreeMap.insert m e.1 e.2) keys := by
  rw [List.foldl_filterMap]
  refine congrArg (fun step => List.foldl step _ _) (funext fun keys => funext fun f => ?_)
  rw [hstep]
  rcases scalarText f.2 with _ | text <;> rfl

theorem getElem?_hard_keys (T : JsonText) (content key : Str) :
    (hard_keys T content)[key]? = scalarField T content key := by
  unfold hard_keys scalarField
  split
  · exact Std.TreeMap.getElem?_emptyc
  rcases T.parse content with _ | j
  · exact Std.TreeMap.getElem?_emptyc
  cases j with
  | object fields =>
    dsimp only
    rw [foldl_scalars fun keys f => by rcases scalarText f.2 with _ | text <;> rfl,
      HardKeys.getElem?_foldl_insert, Std.TreeMap.getElem?_emptyc, Option.or_none,
      ← List.filterMap_reverse, ← List.head?_filterMap, List.filterMap_filterMap,
      List.head?_filterMap]
    refine congrArg (fun g => List.findSome? g _) (funext fun f => ?_)
    rcases scalarText f.2 with _ | text <;> simp
  | _ => exact Std.TreeMap.getElem?_emptyc

theorem FactStore.get_append {store : FactStore} {id : Str} {fact : Fact}
    (h : store.get id = some fact) (type content : Str) :
    (store.append type content).2.get id = some fact := by
  unfold append
  dsimp only
  split
  · exact h
  · next hnone =>
    have hne : id ≠ digest_hex type content := fun hid => by
      rw [hid] at h
      exact nomatch h.symm.trans hnone
    exact (AList.lookup_insert_ne hne).trans h

theorem FactStore.get_append_fst (store : FactStore) (type content : Str) :
    ((store.append type content).2.get (store.append type content).1).isSome := by
  unfold append
  dsimp only
  split
  · next fact h => exact Option.isSome_of_mem h
  · exact Option.isSome_of_mem (AList.lookup_insert _)

def performed (T : JsonText) (context : ContextManager) (ops : List ContextOp) : ContextManager :=
  ops.foldl (ContextOp.apply T) context

def recordedIds : List ContextOp → List Str
  | [] => []
  | .record_tool_result fact_id :: ops => fact_id :: recordedIds ops
  | _ :: ops => recordedIds ops

/-- Every id that is recorded was returned by an append before. -/
def Issued (T : JsonText) (start : ContextManager) (ops : List ContextOp) : Prop :=
  ∀ before fact_id after, ops = before ++ .record_tool_result fact_id :: after →
    ∃ earlier type content later, before = earlier ++ .append type content :: later
      ∧ ((performed T start earlier).store.append type content).1 = fact_id

variable {start context : ContextManager}

theorem performed_append (ops later : List ContextOp) :
    performed T context (ops ++ later) = performed T (performed T context ops) later :=
  List.foldl_append

theorem Issued.init {ops later : List ContextOp} (h : Issued T start (ops ++ later)) :
    Issued T start ops := fun before fact_id after hops =>
  h before fact_id (after ++ later) (by rw [hops, List.append_assoc, List.cons_append])

theorem fact_order_performed (ops : List ContextOp) :
    (performed T context ops).fact_order = context.fact_order ++ recordedIds ops := by
  induction ops generalizing context with
  | nil => exact (List.append_nil _).symm
  | cons op ops ih =>
    refine (@ih (op.apply T context)).trans ?_
    cases op with
    | record_tool_result fact_id => exact List.append_assoc _ [fact_id] _
    | append type content => rfl
    | rebuild_digest => rfl
    | render_working_set ctx => rfl

/-- A fact that the store has stays, whatever is done. -/
theorem get_performed {id : Str} {fact : Fact} (ops : List ContextOp)
    (h : context.store.get id = some fact) :
    (performed T context ops).store.get id = some fact := by
  induction ops generalizing context with
  | nil => exact h
  | cons op ops ih =>
    refine @ih (op.apply T context) ?_
    cases op with
    | append type content => exact FactStore.get_append h type content
    | record_tool_result fact_id => exact h
    | rebuild_digest => exact h
    | render_working_set ctx => exact h

theorem Issued.held {ops : List ContextOp} {fact_id : Str}
    (h : Issued T start (ops ++ [.record_tool_result fact_id])) :
    ((performed T start ops).store.get fact_id).isSome := by
  obtain ⟨earlier, type, content, later, rfl, rfl⟩ := h ops fact_id [] rfl
  obtain ⟨fact, hfact⟩ := Option.isSome_iff_exists.1
    (FactStore.get_append_fst (performed T start earlier).store type content)
  have hkept : (performed T (ContextOp.apply T (performed T start earlier) (.append type content))
      later).store.get ((performed T start earlier).store.append type content).1 = some fact :=
    get_performed later hfact
  rw [performed_append]
  exact Option.isSome_of_mem hkept

/-- The digest is the merge of the recorded facts, and the store has them all. -/
structure Merged (T : JsonText) (context : ContextManager) : Prop where
  held : ∀ id ∈ context.fact_order, (context.store.get id).isSome
  digest_eq : context.digest =
    context.fact_order.foldl (ContextManager.mergeFact T context.store) ∅

theorem merged_new (token_budget : ℕ) : Merged T (.new token_budget) where
  held := List.forall_mem_nil _
  digest_eq := rfl

theorem foldl_mergeFact_append {store : FactStore} {ids : List Str}
    (h : ∀ id ∈ ids, (store.get id).isSome) (type content : Str) (digest : HardKeys) :
    ids.foldl (ContextManager.mergeFact T (store.append type content).2) digest
      = ids.foldl (ContextManager.mergeFact T store) digest := by
  refine List.foldl_ext _ _ _ fun digest id hid => ?_
  obtain ⟨fact, hfact⟩ := Option.isSome_iff_exists.1 (h id hid)
  unfold ContextManager.mergeFact
  rw [hfact, FactStore.get_append hfact]

/-- No operation breaks it, as long as only ids of the store are recorded. -/
theorem Merged.apply (h : Merged T context) {op : ContextOp}
    (hop : ∀ fact_id, op = .record_tool_result fact_id →
      (context.store.get fact_id).isSome) : Merged T (op.apply T context) := by
  cases op with
  | append type content =>
    refine ⟨fun id hid => ?_, ?_⟩
    · obtain ⟨fact, hfact⟩ := Option.isSome_iff_exists.1 (h.held id hid)
      exact Option.isSome_of_mem (FactStore.get_append hfact type content)
    · exact h.digest_eq.trans (foldl_mergeFact_append h.held type content ∅).symm
  | record_tool_result fact_id =>
    refine ⟨fun id hid => ?_, ?_⟩
    · rcases List.mem_append.1 hid with hid | hid
      · exact h.held id hid
      · rw [List.mem_singleton.1 hid]
        exact hop fact_id rfl
    · have hfold : (context.fact_order ++ [fact_id]).foldl
          (ContextManager.mergeFact T context.store) ∅
          = ContextManager.mergeFact T context.store context.digest fact_id := by
        rw [List.foldl_append, ← h.digest_eq]
        rfl
      exact hfold.symm
  | rebuild_digest => exact ⟨h.held, rfl⟩
  | render_working_set ctx => exact h

theorem Merged.performed {ops : List ContextOp} (h : Merged T start)
    (hissued : Issued T start ops) : Merged T (performed T start ops) := by
  induction ops using List.reverseRecOn with
  | nil => exact h
  | append_singleton ops op ih =>
    rw [performed_append]
    refine (ih hissued.init).apply fun fact_id hop => ?_
    rw [hop] at hissued
    exact hissued.held

/-- The value of a key after merging: the last of the facts that has the field decides. -/
theorem getElem?_foldl_mergeFact (store : FactStore) (ids : List Str) (key : Str) :
    (ids.foldl (ContextManager.mergeFact T store) ∅)[key]? =
      ids.reverse.findSome? fun id =>
        (store.get id).bind fun fact => scalarField T fact.content key := by
  induction ids using List.reverseRecOn with
  | nil => exact Std.TreeMap.getElem?_emptyc
  | append_singleton ids id ih =>
    rw [List.foldl_append, List.reverse_append, List.reverse_singleton, List.singleton_append,
      List.findSome?_cons, ← ih, List.foldl_cons, List.foldl_nil, ContextManager.mergeFact]
    rcases store.get id with _ | fact
    · rfl
    · dsimp only [Option.bind_some]
      rw [HardKeys.getElem?_update, getElem?_hard_keys]
      rcases scalarField T fact.content key with _ | text <;> rfl

/-- The digest kept is the digest rebuilt: for each key the value of the latest recorded fact whose
content has a scalar field of that name. -/
theorem digest_eq_rebuilt (T : JsonText) (token_budget : ℕ) {ops : List ContextOp}
    (h : Issued T (.new token_budget) ops) :
    (performed T (.new token_budget) ops).digest
        = ((performed T (.new token_budget) ops).rebuild_digest T).digest
      ∧ ∀ key, (performed T (.new token_budget) ops).digest[key]? =
        (recordedIds ops).reverse.findSome? fun id =>
          ((performed T (.new token_budget) ops).store.get id).bind fun fact =>
            scalarField T fact.content key := by
  have hmerged := (merged_new token_budget).performed h
  refine ⟨hmerged.digest_eq, fun key => ?_⟩
  rw [hmerged.digest_eq, getElem?_foldl_mergeFact, fact_order_performed]
  rfl

/-- Two measurements of one thing, each recorded after it is stored. -/
def twoReadings : List ContextOp :=
  [.append "reading" "\x7b\"a\":1,\"b\":true\x7d",
    .record_tool_result (FactStore.digest_hex "reading" "\x7b\"a\":1,\"b\":true\x7d"),
    .append "reading" "\x7b\"a\":2\x7d",
    .rebuild_digest,
    .record_tool_result (FactStore.digest_hex "reading" "\x7b\"a\":2\x7d")]

def readingText : JsonText := .ofTable
  [("\x7b\"a\":1,\"b\":true\x7d",
      .object [("a", .number_unsigned 1), ("b", .boolean true)]),
    ("\x7b\"a\":2\x7d", .object [("a", .number_unsigned 2)])]

theorem digest_eq_rebuilt_twoReadings :
    Issued readingText (.new 100) twoReadings
      ∧ (performed readingText (.new 100) twoReadings).digest[lit "a"]? = some (lit "2")
      ∧ (performed readingText (.new 100) twoReadings).digest[lit "b"]? = some (lit "true") := by
  have hissued : Issued readingText (.new 100) twoReadings := by
    intro before fact_id after hops
    rcases before with _ | ⟨_, _ | ⟨_, _ | ⟨_, _ | ⟨_, _ | ⟨_, before⟩⟩⟩⟩⟩ <;>
      simp [twoReadings] at hops
    · obtain ⟨rfl, rfl, rfl⟩ := hops
      exact ⟨[], _, _, [], rfl, rfl⟩
    · obtain ⟨rfl, rfl, rfl, rfl, rfl, rfl⟩ := hops
      exact ⟨[_, _], _, _, [_], rfl, by decide +kernel⟩
  have hdigest := (digest_eq_rebuilt readingText 100 hissued).2
  exact ⟨hissued, (hdigest _).trans (by decide +kernel), (hdigest _).trans (by decide +kernel)⟩

end Praxis
