import Praxis.Proofs.Recall

/-!
# Nothing that is on record is lost

Whatever a client asks of an orchestrator, in whatever order and however its runs end, what is on
record before is on record after it and says the same (`history_kept`).
-/

namespace Praxis

namespace Orchestrator

open Effect (Prog Blocks Keeps)

variable {W U E : Type} {M : Machine W U}

/-- What is on record in `s` is in `s'`, where it was and as it was. -/
structure Kept (s s' : Sys W U E) : Prop where
  events : s.self.replay.events <+: s'.self.replay.events
  ledger : s.ledger <+: s'.ledger
  facts : ∀ id fact, s.self.context.store.get id = some fact →
    s'.self.context.store.get id = some fact
  fact_order : s.self.context.fact_order <+: s'.self.context.fact_order
  sinks : s.self.replay.sinks <+: s'.self.replay.sinks
  tools : ∀ name, (s.self.registry.find name).isSome → (s'.self.registry.find name).isSome
  options : s'.self.options = s.self.options

namespace Kept

variable {s s' s'' : Sys W U E}

theorem refl (s : Sys W U E) : Kept s s where
  events := List.prefix_refl _
  ledger := List.prefix_refl _
  facts := fun _ _ h => h
  fact_order := List.prefix_refl _
  sinks := List.prefix_refl _
  tools := fun _ h => h
  options := rfl

theorem trans (h : Kept s s') (h' : Kept s' s'') : Kept s s'' where
  events := h.events.trans h'.events
  ledger := h.ledger.trans h'.ledger
  facts := fun id fact hfact => h'.facts id fact (h.facts id fact hfact)
  fact_order := h.fact_order.trans h'.fact_order
  sinks := h.sinks.trans h'.sinks
  tools := fun name hname => h'.tools name (h.tools name hname)
  options := h'.options.trans h.options

/-- Nothing but the log, the ledger and the tools has changed. -/
theorem of_context (hevents : s.self.replay.events <+: s'.self.replay.events)
    (hledger : s.ledger <+: s'.ledger) (hsinks : s.self.replay.sinks <+: s'.self.replay.sinks)
    (htools : ∀ name, (s.self.registry.find name).isSome → (s'.self.registry.find name).isSome)
    (hoptions : s'.self.options = s.self.options) (hcontext : s'.self.context = s.self.context) :
    Kept s s' where
  events := hevents
  ledger := hledger
  facts := fun id fact h => by rw [hcontext]; exact h
  fact_order := by rw [hcontext]
  sinks := hsinks
  tools := htools
  options := hoptions

end Kept

/-! ## Runs -/

/-- An action but for those that store results only adds to the log and to the ledger. -/
theorem Writes.kept {k : Action} {s s' : Sys W U E} (h : Writes k s s') (hk : k ≠ .store) :
    Kept s s' := by
  cases h with
  | record event env =>
    exact .of_context (List.prefix_append _ _) (List.prefix_refl _) (List.prefix_refl _)
      (fun _ h => h) rfl rfl
  | ledger records =>
    exact .of_context (List.prefix_refl _) (List.prefix_append _ _) (List.prefix_refl _)
      (fun _ h => h) rfl rfl
  | store context => exact absurd rfl hk
  | _ =>
    exact .of_context (List.prefix_refl _) (List.prefix_refl _) (List.prefix_refl _)
      (fun _ h => h) rfl rfl

theorem kept_store_result (T : JsonText) (body : Str) (s : Sys W U E) :
    Kept s ((store_result T body).exec s).2 where
  events := List.prefix_refl _
  ledger := List.prefix_refl _
  facts := fun id fact h => by
    have hget := FactStore.lookup_foldl_append "tool_result" id [body] s.self.context.store
    rw [List.foldl_cons, List.foldl_nil, h, Option.some_or] at hget
    exact hget
  fact_order := List.prefix_append _ _
  sinks := List.prefix_refl _
  tools := fun _ h => h
  options := rfl

theorem Does.kept {k : Action} {α : Type} {x : RunM W U E α} (h : Does M k x) : Keeps Kept x := by
  intro s
  by_cases hk : k = .store
  · subst hk
    cases h with
    | store_result body => exact kept_store_result M.text body s
  · exact (h.writes s).kept hk

/-- However a run ends. -/
theorem kept_run (M : Machine W U) (task : Str) (budget : Budget) (s : Sys W U E) :
    Kept s ((run M task budget).exec s).2 :=
  keeps_run Kept.refl (fun _ _ _ => Kept.trans) (fun _ _ _ hy => hy.kept) s

/-! ## Clients -/

theorem isSome_find_register {registry : ToolRegistry W U} {name : Str}
    (h : (registry.find name).isSome) :
    ∀ tool : Option (Tool W U), ((registry.register_tool tool).find name).isSome
  | none => h
  | some tool => by
    rw [ToolRegistry.find_register]
    split_ifs
    · rfl
    · exact h

theorem ClientCall.kept (call : ClientCall W U E) (s : Sys W U E) : Kept s (call.exec M s) := by
  have hsetup : ∀ {s' : Sys W U E}, s'.self.replay = s.self.replay → s'.ledger = s.ledger →
      s'.self.context = s.self.context → s'.self.options = s.self.options →
      (∀ name, (s.self.registry.find name).isSome → (s'.self.registry.find name).isSome) →
      Kept s s' := fun hreplay hledger hcontext hoptions htools => by
    refine .of_context ?_ ?_ ?_ htools hoptions hcontext
    · rw [hreplay]
    · rw [hledger]
    · rw [hreplay]
  cases call with
  | run task budget => exact kept_run M task budget s
  | register_builtin ctx =>
    exact hsetup rfl rfl rfl rfl fun name h =>
      isSome_find_register (isSome_find_register (isSome_find_register h _) _) _
  | register_tool tool => exact hsetup rfl rfl rfl rfl fun name h => isSome_find_register h tool
  | set_provider tier provider =>
    cases provider with
    | none => exact .refl s
    | some provider => exact hsetup rfl rfl rfl rfl fun _ h => h
  | attach_observer sink =>
    exact .of_context (List.prefix_refl _) (List.prefix_refl _) (List.prefix_append _ _)
      (fun _ h => h) rfl rfl
  | set_executor_parallel parallel => exact hsetup rfl rfl rfl rfl fun _ h => h
  | invalidate_cache_dependency dep => exact hsetup rfl rfl rfl rfl fun _ h => h

/-- Over any calls of a client, the events, the records and the facts are added to but never changed
or dropped, and no tool's name, observer or option is lost. -/
theorem history_kept (M : Machine W U) : ∀ (calls : List (ClientCall W U E)) (s : Sys W U E),
    Kept s (calls.foldl (ClientCall.exec M) s)
  | [], s => .refl s
  | call :: calls, s => (call.kept s).trans (history_kept M calls (call.exec M s))

end Orchestrator

end Praxis
