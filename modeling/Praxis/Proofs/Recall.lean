import Praxis.Proofs.Balance
import Praxis.Proofs.Conversation

/-!
# What can be recalled after a session

A working set that is short of room cuts the text of a result and refers the model to the fact's id.
The text is kept: after any number of runs that return, exactly the results that their turns have
recorded can be recalled, each in full (`recall_after_session`).
-/

namespace Praxis

namespace FactStore

/-- Of the facts of a type with the same id, the first is kept. -/
theorem lookup_foldl_append (type id : Str) : ∀ (contents : List Str) (store : FactStore),
    (contents.foldl (fun store content => (store.append type content).2) store).get id
      = (store.get id).or ((contents.find? fun content => digest_hex type content = id).map
        fun content => { id := id, type := type, content := content })
  | [], store => by simp
  | content :: contents, store => by
    rw [List.foldl_cons, lookup_foldl_append type id contents, List.find?_cons]
    unfold append get
    dsimp only
    by_cases hid : digest_hex type content = id
    · subst hid
      rcases hlookup : store.entries.lookup (digest_hex type content) with _ | fact
      · simp
      · simp [hlookup]
    · rw [decide_eq_false hid]
      rcases hlookup : store.entries.lookup (digest_hex type content) with _ | fact
      · simp [AList.lookup_insert_ne (Ne.symm hid)]
      · rfl

end FactStore

namespace Orchestrator

open Effect (Prog Blocks Keeps)

variable {W U E : Type} {M : Machine W U} {task : Str} {budget : Budget}

/-! ## The store of a run -/

theorem store_rememberAll (T : JsonText) : ∀ (bodies : List Str) (context : ContextManager),
    (rememberAll T context bodies).2.store
      = bodies.foldl (fun store body => (store.append "tool_result" body).2) context.store
  | [], _ => rfl
  | body :: bodies, context => by
    rw [rememberAll, List.foldl_cons]
    refine (store_rememberAll T bodies _).trans ?_
    congr 1

/-- The records that a turn has still to store. -/
def Point.unstored : Point → List ToolExecutionRecord
  | .called _ _ _ records => records
  | _ => []

/-- The store holds the results in the ledger, but for those still to be stored. -/
def Banked (T : JsonText) (p : Point) (s : Sys W U E) : Prop :=
  ∃ done, s.ledger = done ++ p.unstored
    ∧ s.self.context.store
      = (done.map (bodyOf T)).foldl (fun store body => (store.append "tool_result" body).2) {}

theorem banked_quiet {p q : Point} (hp : p.quiet = true) (hq : q.unstored = []) {s s' : Sys W U E}
    (hs : Banked M.text p s) (h : (p.block M task budget).exec s = (.ok q, s')) :
    Banked M.text q s' := by
  have hpending : p.unstored = [] := by
    cases p with
    | called => cases hp
    | _ => rfl
  obtain ⟨hcontext, hledger⟩ := kept_quiet hp h
  unfold Banked at hs ⊢
  rw [hcontext, hledger, hq]
  rwa [hpending] at hs

theorem banked_block {p q : Point} (hfinal : p.final = false) {s s' : Sys W U E}
    (hs : Banked M.text p s) (h : (p.block M task budget).exec s = (.ok q, s')) :
    Banked M.text q s' := by
  have hnext := Point.next_block p hfinal s q s' h
  cases hnext with
  | @call l chosen_tier calls views records =>
    obtain ⟨views', records', hq, hledger⟩ := ledger_calling h
    cases hq
    have hruns : Runs M (Point.calling l chosen_tier calls).actions
        ((Point.calling l chosen_tier calls).block M task budget : RunM W U E Point) := runs_block _
    have hcontext := hruns.unheard (by simp) s
    rw [h] at hcontext
    obtain ⟨done, hdone, hstore⟩ := hs
    refine ⟨done, ?_, by rw [hcontext, hstore]⟩
    rw [hledger, hdone]
    exact congrArg (· ++ records) (List.append_nil done)
  | @results l chosen_tier views records messages =>
    obtain ⟨hq, hcontext⟩ := exec_called h
    cases hq
    have hruns : Runs M (Point.called l chosen_tier views records).actions
        ((Point.called l chosen_tier views records).block M task budget : RunM W U E Point) :=
      runs_block _
    have hledger := (hruns.unlisted (by simp) s).1
    rw [h] at hledger
    obtain ⟨done, hdone, hstore⟩ := hs
    refine ⟨done ++ records, ?_, ?_⟩
    · exact (hledger.trans hdone).trans (List.append_nil _).symm
    · rw [hcontext, turnReport, store_rememberAll, hstore, List.map_append, List.foldl_append]
  | _ => exact banked_quiet rfl rfl hs h

theorem banked_run {s : Sys W U E} (h : Banked M.text .start s)
    (hret : ((run M task budget).exec s).1.isOk) :
    Banked M.text .start ((run M task budget).exec s).2 := by
  obtain ⟨r, hr⟩ : ∃ r, ((run M task budget).exec s).1 = .ok r := by
    rcases hrun : ((run M task budget).exec s).1 with e | r
    · rw [hrun] at hret
      cases hret
    · exact ⟨r, rfl⟩
  have hall := Blocks.along (control M task budget) (c := (.ok .start, s))
    (Q := fun _ d => ∀ p, d.1 = .ok p → Banked M.text p d.2)
    (fun p hp => by cases hp; exact h) (fun ms d d' hQ hadvance q hq => ?_) (List.prefix_refl _)
  · have hstop := stop_moves (show (run M task budget).exec s
      = (.ok r, ((run M task budget).exec s).2) from Prod.ext hr rfl)
    rw [moves] at hstop
    rw [hstop] at hall
    exact hall (.ended r) rfl
  · obtain ⟨_ | p, s₁⟩ := d
    · cases hadvance
    · obtain ⟨_, s₂⟩ := d'
      obtain rfl : _ = Except.ok q := hq
      obtain ⟨hfinal, hexec⟩ := exec_of_advance hadvance
      exact banked_block hfinal (hQ p rfl) hexec

theorem banked_session : ∀ {runs : List (Str × Budget)} {s : Sys W U E}, Banked M.text .start s →
    SessionReturns M runs s → Banked M.text .start (sessionEnd M runs s)
  | [], _, h, _ => h
  | (_, _) :: _, _, h, hret => by
    have hrest := banked_session (banked_run h hret.1) hret.2
    exact hrest

/-- After any runs that return, an id recalls the first of the recorded results with that id,
verbatim, and the id of no result recalls nothing. -/
theorem recall_after_session (M : Machine W U) (runs : List (Str × Budget)) (s : Sys W U E)
    (hstore : s.self.context.store = {}) (hledger : s.ledger = [])
    (hret : SessionReturns M runs s) (id : Str) :
    let after := sessionEnd M runs s
    after.self.context.recall id
      = some (match (after.ledger.map (bodyOf M.text)).find? fun body =>
          FactStore.digest_hex "tool_result" body = id with
        | some body => { mode := .Precise, id := id, content := body, confidence := 1 }
        | none => { mode := .Degraded }) := by
  intro after
  obtain ⟨done, hdone, hfacts⟩ := banked_session (M := M) ⟨[], hledger, hstore⟩ hret
  have hget := FactStore.lookup_foldl_append "tool_result" id (done.map (bodyOf M.text)) {}
  rw [← hfacts] at hget
  have hledger' : after.ledger = done := hdone.trans (List.append_nil _)
  unfold ContextManager.recall
  rw [show after.self.context.store.get id = _ from hget, hledger']
  rw [show FactStore.get {} id = none from rfl, Option.none_or]
  cases (done.map (bodyOf M.text)).find? fun body =>
    FactStore.digest_hex "tool_result" body = id <;> rfl

/-- A file is read twice and a tool called that is not there; the file's text can be recalled. -/
theorem recall_after_reread :
    let s := treeStart [proposal "read_file" readTree, answer "CONFIRM",
      proposal "read_file" readTree, answer "CONFIRM", proposal "list" "", answer "CONFIRM",
      answer "done"]
    let after := sessionEnd treeMachine [("task", {})] s
    ∀ id, after.self.context.recall id
      = some (match (after.ledger.map (bodyOf treeMachine.text)).find? fun body =>
          FactStore.digest_hex "tool_result" body = id with
        | some body => { mode := .Precise, id := id, content := body, confidence := 1 }
        | none => { mode := .Degraded }) := fun id =>
  recall_after_session treeMachine [("task", {})] _ rfl rfl ⟨by decide +kernel, trivial⟩ id

end Orchestrator

end Praxis
