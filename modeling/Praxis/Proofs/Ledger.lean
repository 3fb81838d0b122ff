import Praxis.Proofs.Actions

/-!
# The ledger only grows

No part of a run takes a record out of the ledger, whether it returns or throws; only `run_calls`
adds any.
-/

namespace Praxis

namespace Orchestrator

open Effect (Prog Keeps)

variable {W U E α β : Type}

/-- The program only appends to the ledger. -/
abbrev Grows (x : RunM W U E α) : Prop := Keeps (fun s s' => s.ledger <+: s'.ledger) x

theorem grows_pure {a : α} : Grows (pure a : RunM W U E α) :=
  Keeps.pure (fun s => List.prefix_refl s.ledger) a

theorem grows_bind {x : RunM W U E α} {f : α → RunM W U E β} (hx : Grows x)
    (hf : ∀ a, Grows (f a)) : Grows (x >>= f) :=
  Keeps.bind (fun _ _ _ h h' => h.trans h') hx hf

theorem grows_of {f : Sys W U E → Except Exn α × Sys W U E}
    (h : ∀ s, (f s).2.ledger = s.ledger) : Grows (Prog.of f) := fun s => by
  show s.ledger <+: (f s).2.ledger
  exact (h s).symm ▸ List.prefix_refl s.ledger

theorem grows_writes {k : Action} {s s' : Sys W U E} (h : Writes k s s') :
    s.ledger <+: s'.ledger := by
  cases h with
  | ledger _ records => exact List.prefix_append s.ledger records
  | _ => exact List.prefix_refl s.ledger

theorem Runs.grows {M : Machine W U} {S : List Action} {x : RunM W U E α} (h : Runs M S x) :
    Grows x :=
  h.keepsWrites (R := fun s s' => s.ledger <+: s'.ledger) (fun s => List.prefix_refl s.ledger)
    (fun _ _ _ h h' => h.trans h') fun _ _ _ _ => grows_writes

/-- What a turn does with the records of its calls. -/
theorem grows_use_records {M : Machine W U} {chosen_tier : Tier} {views : List CallView}
    {records : List ToolExecutionRecord} {turn_ctx : TurnContext} {messages : Messages} :
    Grows (do
      let (turn_ctx, messages) ← record_results M chosen_tier views records turn_ctx messages
      let messages ← Prog.step fun s => (feed_working_set s.self messages turn_ctx, s)
      apply_side_effects M
      pure messages : RunM W U E Messages) :=
  grows_bind (runs_record_results (List.Subset.refl _)).grows fun _ =>
    grows_bind (grows_of fun _ => rfl) fun _ =>
      grows_bind (runs_apply_side_effects (List.Subset.refl _)).grows fun _ => grows_pure

theorem grows_finish {result : RunResult} : Grows (finish result : RunM W U E _) := by
  unfold finish
  split_ifs
  · exact grows_pure
  · exact grows_bind (grows_of fun _ => rfl) fun _ => grows_pure

theorem grows_turns {M : Machine W U} {task : Str} {budget : Budget} {remaining : ℕ} {i : UInt32}
    {result : RunResult} {messages : Messages} :
    Grows (turns M task budget remaining i result messages : RunM W U E _) :=
  keeps_turns (fun s => List.prefix_refl s.ledger) (fun _ _ _ h h' => h.trans h')
    (fun _ _ _ => grows_writes) remaining i result messages

end Orchestrator

end Praxis
