import Praxis.Proofs.Actions
import Praxis.Proofs.Splice
import Praxis.Proofs.Stale
import Praxis.Proofs.Unicode

/-!
# What a run sends out

The strings of the events and of the messages to a provider are valid as long as what comes in is,
and no cut goes through a character (`outgoing_of_uncut`): the log and the review of a plan cut it
after 80 bytes, the working set cuts a long fact after half as many bytes as it may have tokens.
-/

namespace Praxis

open Utf8 (Valid)

namespace Orchestrator

open Effect (Prog Blocks Keeps Secures)

variable {W U E : Type} {M : Machine W U} {task : Str} {budget : Budget} {limit : ℕ}

/-- No character of the plan is where the log cuts it. -/
def PlanFits (plan : Str) : Prop := 80 < plan.length → Valid (plan.take 80)

/-- Name and arguments of every call are valid. -/
def UnicodeCalls (calls : List ToolCall) : Prop :=
  ∀ call ∈ calls, Valid call.name ∧ Valid call.arguments

/-- The texts that have come in and are in hand here: a response with the calls it proposes, the
error of a provider, a decision, the results of tools, the paths of changed files. -/
def incoming (M : Machine W U) (c : Config W U E) : List Str :=
  match c.1 with
  | .ok (.answered _ _ (.error err)) => [err.message]
  | .ok (.answered _ _ (.ok resp)) =>
    resp.outcome.plan :: ((extract_tool_calls M.text resp.raw).toOption.getD []).flatMap
      fun call => [call.name, call.arguments]
  | .ok (.reviewed _ _ _ _ (.ok resp)) => [resp.outcome.plan]
  | .ok (.called _ _ _ records) =>
    records.flatMap fun rec => rec.result.error_message :: rec.result.output.strings
  | .ok (.observing _) =>
    let self := c.2.self
    (self.side_effects.diff M.platform c.2.world self.options.side_effect_root).toOption.getD []
  | _ => []

/-- What is left of the texts in hand here that are longer than the log or the working set shows
them: of a plan, and of the results of tools. -/
def pieces (M : Machine W U) (c : Config W U E) : List Str :=
  match c.1 with
  | .ok (.answered _ _ (.ok resp)) =>
    if 80 < resp.outcome.plan.length then [resp.outcome.plan.take 80] else []
  | .ok (.called _ _ _ records) =>
    let limit := c.2.self.context.max_working_tokens
    ((records.filterMap fun rec => (resultBody M.text rec).toOption).filter
      fun body => limit < estimate_tokens body).map (List.take (limit / 2))
  | _ => []

/-- All that comes in here is valid. -/
def Supplied (M : Machine W U) (c : Config W U E) : Prop := ∀ s ∈ incoming M c, Valid s

instance {c : Config W U E} : Decidable (Supplied M c) :=
  inferInstanceAs (Decidable (∀ s ∈ incoming M c, Valid s))

/-- No character is where a text will be cut. -/
def Uncut (M : Machine W U) (c : Config W U E) : Prop := ∀ s ∈ pieces M c, Valid s

instance {c : Config W U E} : Decidable (Uncut M c) :=
  inferInstanceAs (Decidable (∀ s ∈ pieces M c, Valid s))

/-- The messages that are about to be handed to a provider. -/
def Point.requested : Point → Messages
  | asking l => l.messages
  | reviewing l _ plan calls => l.messages ++ [reviewMessage plan calls.length]
  | _ => []

/-- Every string of the events and of the messages about to be sent is valid. -/
structure Outgoing (c : Config W U E) : Prop where
  events : ∀ e ∈ c.2.self.replay.events, e.payload.Unicode
  messages : ∀ p, c.1 = .ok p → ∀ m ∈ p.requested, m.Unicode

theorem Supplied.calls {l : Loop} {chosen_tier : Tier} {resp : ModelResponse} {s : Sys W U E}
    (h : Supplied M (.ok (.answered l chosen_tier (.ok resp)), s)) {calls : List ToolCall}
    (hcalls : extract_tool_calls M.text resp.raw = .ok calls) : UnicodeCalls calls := by
  have htexts : ∀ call ∈ calls, ∀ text ∈ [call.name, call.arguments], Valid text :=
    fun call hcall text htext => h text (List.mem_cons_of_mem _ (by
      rw [hcalls]
      exact List.mem_flatMap.2 ⟨call, hcall, htext⟩))
  exact fun call hcall => ⟨htexts call hcall _ (by simp), htexts call hcall _ (by simp)⟩

theorem Supplied.errors {l : Loop} {chosen_tier : Tier} {views : List CallView}
    {records : List ToolExecutionRecord} {s : Sys W U E}
    (h : Supplied M (.ok (.called l chosen_tier views records), s)) :
    ∀ rec ∈ records, Valid rec.result.error_message := fun rec hrec =>
  h _ (List.mem_flatMap.2 ⟨rec, hrec, List.mem_cons_self⟩)

theorem Supplied.paths {l : Loop} {s : Sys W U E} (h : Supplied M (.ok (.observing l), s))
    {changed : List Str}
    (hchanged : s.self.side_effects.diff M.platform s.world s.self.options.side_effect_root
      = .ok changed) : ∀ path ∈ changed, Valid path := fun path hpath => h path (by
  show path ∈ (s.self.side_effects.diff M.platform s.world _).toOption.getD []
  rw [hchanged]
  exact hpath)

theorem Uncut.plan {l : Loop} {chosen_tier : Tier} {resp : ModelResponse} {s : Sys W U E}
    (h : Uncut M (.ok (.answered l chosen_tier (.ok resp)), s)) : PlanFits resp.outcome.plan :=
  fun hlong => h _ (by
    show _ ∈ if 80 < resp.outcome.plan.length then [resp.outcome.plan.take 80] else []
    rw [if_pos hlong]
    exact List.mem_singleton_self _)

theorem Uncut.results {l : Loop} {chosen_tier : Tier} {views : List CallView}
    {records : List ToolExecutionRecord} {s : Sys W U E}
    (h : Uncut M (.ok (.called l chosen_tier views records), s))
    (hlimit : s.self.context.max_working_tokens = limit) :
    ∀ rec ∈ records, ∀ body, resultBody M.text rec = .ok body → CutFits limit body := by
  subst hlimit
  refine fun rec hrec body hbody hlong =>
    h _ (List.mem_map.2 ⟨body, List.mem_filter.2 ⟨?_, ?_⟩, rfl⟩)
  · exact List.mem_filterMap.2 ⟨rec, hrec, by rw [hbody]; rfl⟩
  · exact decide_eq_true hlong

/-- The events and the context hold valid texts. -/
structure Clean (limit : ℕ) (s : Sys W U E) : Prop where
  events : ∀ e ∈ s.self.replay.events, e.payload.Unicode
  context : s.self.context.Unicode
  max_working_tokens : s.self.context.max_working_tokens = limit

theorem Clean.of_eq {s s' : Sys W U E} (h : Clean limit s)
    (hevents : s'.self.replay.events = s.self.replay.events)
    (hcontext : s'.self.context = s.self.context) : Clean limit s' :=
  ⟨hevents ▸ h.events, hcontext ▸ h.context, hcontext ▸ h.max_working_tokens⟩

/-- The kinds of actions that touch neither the events nor the context. -/
def Action.unheard : Action → Bool
  | record | store => false
  | _ => true

theorem Runs.secures {S : List Action} {α : Type} {x : RunM W U E α} (h : Runs M S x)
    (hS : ∀ k ∈ S, k.unheard = true) : Secures (Clean limit) x fun _ => True := by
  refine .of_keeps (h.keepsWrites (R := fun s s' => Clean limit s → Clean limit s')
    (fun _ hs => hs) (fun _ _ _ h h' hs => h' (h hs)) fun k hk s s' hwrites hs => ?_)
  have hunheard := hS k hk
  cases hwrites with
  | record | store => cases hunheard
  | _ => exact hs.of_eq rfl rfl

/-- A step that touches neither the events nor the context. -/
theorem secures_apart {α : Type} {f : Sys W U E → α × Sys W U E}
    (h : ∀ s, (f s).2.self.replay.events = s.self.replay.events
      ∧ (f s).2.self.context = s.self.context) :
    Secures (Clean limit) (Prog.step f : RunM W U E α) fun _ => True :=
  fun s hs => ⟨hs.of_eq (h s).1 (h s).2, fun _ _ _ => trivial⟩

theorem secures_record {kind : EventKind} {payload : List (Str × Json)}
    (h : Json.UnicodeFields payload) :
    Secures (Clean limit) (record kind payload : RunM W U E Unit) fun _ => True := by
  refine fun s hs => ⟨⟨fun e he => ?_, hs.context, hs.max_working_tokens⟩, fun _ _ _ => trivial⟩
  rcases List.mem_append.1 he with he | he
  · exact hs.events e he
  · obtain rfl := List.mem_singleton.1 he
    exact Json.unicode_ofFields h

/-- A name of the engine's with a value that is valid. -/
theorem unicode_field {key : String} {value : Json} (hkey : (lit key).all (· < 128) = true)
    (hvalue : value.Unicode) : Valid (lit key) ∧ value.Unicode := ⟨valid_lit hkey, hvalue⟩

theorem secures_record_one {kind : EventKind} {key : String} {value : Json}
    (hkey : (lit key).all (· < 128) = true) (hvalue : value.Unicode) :
    Secures (Clean limit) (record kind [(key, value)] : RunM W U E Unit) fun _ => True :=
  secures_record (List.forall_mem_singleton.2 (unicode_field hkey hvalue))

theorem secures_record_two {kind : EventKind} {key key' : String} {value value' : Json}
    (hkey : (lit key).all (· < 128) = true) (hvalue : value.Unicode)
    (hkey' : (lit key').all (· < 128) = true) (hvalue' : value'.Unicode) :
    Secures (Clean limit) (record kind [(key, value), (key', value')] : RunM W U E Unit)
      fun _ => True :=
  secures_record (List.forall_mem_cons.2
    ⟨unicode_field hkey hvalue, List.forall_mem_singleton.2 (unicode_field hkey' hvalue')⟩)

theorem PlanFits.trim {plan : Str} (h : PlanFits plan) (hplan : Valid plan) :
    Valid (trim_for_log plan) := by
  unfold trim_for_log
  split_ifs with hle
  · exact hplan
  · exact (h (not_le.1 hle)).append (valid_lit (by decide))

theorem unicode_reviewMessage {plan : Str} (h : PlanFits plan) (hplan : Valid plan) (count : ℕ) :
    (reviewMessage plan count).Unicode where
  role := valid_lit (by decide)
  content := ((((((valid_lit (by decide)).append (h.trim hplan)).append
    (valid_lit (by decide))).append (valid_decimal count)).append (valid_lit (by decide))).append
      (valid_lit (by decide))).append (valid_lit (by decide))
  tool_calls := nofun

theorem valid_dropWhile {s : Str} (p : UInt8 → Bool) (hp : ∀ b, p b = true → b < 128)
    (h : Valid s) : Valid (s.dropWhile p) := by
  have hsplit := List.takeWhile_append_dropWhile (p := p) (l := s)
  rw [← hsplit] at h
  exact Valid.of_append
    (Utf8.valid_ascii fun b hb => hp b (List.all_eq_true.1 List.all_takeWhile b hb)) h

theorem valid_overridePlan {dplan plan : Str} (h : overridePlan dplan = some plan)
    (hvalid : Valid dplan) : Valid plan := by
  unfold overridePlan at h
  split_ifs at h with hif
  obtain rfl := Option.some.inj h
  have hstarts : starts_with "OVERRIDE:" dplan = true := by simp_all
  obtain ⟨rest, rfl⟩ := List.isPrefixOf_iff_prefix.1 hstarts
  rw [List.drop_left]
  refine valid_dropWhile _ (fun b hb => ?_) (Valid.of_append (valid_lit (by decide)) hvalid)
  simp only [Bool.or_eq_true, beq_iff_eq] at hb
  rcases hb with rfl | rfl <;> decide

/-- What is in hand at a point and may be sent later is valid. -/
def Point.Unicode : Point → Prop
  | start | leaving _ | ended _ => True
  | head l | asking l | answered l _ _ | observing l => ∀ m ∈ l.messages, m.Unicode
  | reviewing l _ plan calls =>
    (∀ m ∈ l.messages, m.Unicode) ∧ (Valid plan ∧ PlanFits plan) ∧ UnicodeCalls calls
  | reviewed l _ calls _ _ | calling l _ calls =>
    (∀ m ∈ l.messages, m.Unicode) ∧ UnicodeCalls calls
  | called l _ _ records =>
    (∀ m ∈ l.messages, m.Unicode) ∧ ∀ rec ∈ records, Valid rec.tool_name

theorem Point.Unicode.requested {p : Point} (h : p.Unicode) : ∀ m ∈ p.requested, m.Unicode := by
  cases p with
  | asking l => exact h
  | reviewing l chosen_tier plan calls =>
    exact List.forall_mem_append.2 ⟨h.1,
      List.forall_mem_singleton.2 (unicode_reviewMessage h.2.1.2 h.2.1.1 calls.length)⟩
  | _ => exact fun m hm => absurd hm List.not_mem_nil

/-- Most points are reached with what was in hand before and what has come in. -/
theorem Point.Unicode.next {p q : Point} {s : Sys W U E} (h : p.Unicode) (htask : Valid task)
    (hsupplied : Supplied M (.ok p, s)) (huncut : Uncut M (.ok p, s))
    (hnext : Point.Next M task budget p q)
    (hcalling : ∀ l chosen_tier calls, p ≠ .calling l chosen_tier calls)
    (hcalled : ∀ l chosen_tier views records, p ≠ .called l chosen_tier views records) :
    q.Unicode := by
  cases hnext with
  | start =>
    refine List.forall_mem_singleton.2 ⟨valid_lit (by decide), htask, nofun⟩
  | turn | answer | round => exact h
  | propose turn_cost hbudget htool hcalls =>
    exact ⟨h, ⟨hsupplied _ List.mem_cons_self, huncut.plan⟩, hsupplied.calls hcalls⟩
  | review decision_tier response => exact ⟨h.1, h.2.2⟩
  | stand | confirm => exact h
  | override => exact ⟨h.1, fun call hcall => absurd hcall List.not_mem_nil⟩
  | call => exact absurd rfl (hcalling _ _ _)
  | results => exact absurd rfl (hcalled _ _ _ _)
  | _ => trivial

theorem secures_lookup_call {call : ToolCall} {registry : ToolRegistry W U}
    (hcall : Valid call.name ∧ Valid call.arguments) :
    Secures (Clean limit) (lookup_call (callView registry call) : RunM W U E _) fun _ => True := by
  unfold lookup_call
  refine (secures_apart fun _ => ⟨rfl, rfl⟩).bind fun cached _ =>
    (secures_apart fun _ => ⟨rfl, rfl⟩).bind fun _ _ => ?_
  cases cached with
  | none => exact .pure trivial
  | some output =>
    have hkey : Valid (cache_key (callView registry call)) :=
      (hcall.1.append (valid_lit (by decide))).append hcall.2
    exact (secures_record_two (by decide) (Json.unicode_string.2 hcall.1) (by decide)
      (Json.unicode_string.2 hkey)).bind fun _ _ => .pure trivial

/-- The calls that are looked up and not found are among the calls. -/
theorem secures_lookup_calls {registry : ToolRegistry W U} :
    ∀ {calls : List ToolCall} {i : ℕ}, UnicodeCalls calls →
      Secures (Clean limit)
        (lookup_calls i (calls.zip (build_call_views registry calls)) : RunM W U E _)
        fun found => UnicodeCalls found.1
  | [], _, _ => .pure fun call hcall => absurd hcall List.not_mem_nil
  | call :: calls, i, h => by
    obtain ⟨hcall, hrest⟩ := List.forall_mem_cons.1 h
    show Secures _ (lookup_calls i ((call, callView registry call)
      :: calls.zip (build_call_views registry calls))) _
    unfold lookup_calls
    refine (secures_lookup_call hcall).bind fun cached _ =>
      (secures_lookup_calls hrest).bind fun found hfound => ?_
    cases cached with
    | none => exact .pure (List.forall_mem_cons.2 ⟨hcall, hfound⟩)
    | some output => exact .pure hfound

theorem returns_named {registry : ToolRegistry W U} {call : ToolCall} (h : Valid call.name)
    (ctx : Option (Ctx U)) :
    (invoke_one registry call ctx).run.Returns
      fun out => ∀ r, out = .ok r → Valid r.tool_name := by
  unfold invoke_one
  split
  · exact .ret fun r hr => by cases hr; exact h
  · exact .ret fun r hr => by cases hr; exact h
  · refine (Interleave.Proc.returns_true _).bind fun out _ => ?_
    cases out with
    | error e => exact .ret fun r hr => by cases hr
    | ok result => exact .ret fun r hr => by cases hr; exact h

/-- A record is named after its call, if it is not empty. -/
theorem secures_execute_pending {pending : List ToolCall} (h : UnicodeCalls pending) :
    Secures (Clean limit) (execute_pending M pending : RunM W U E _)
      fun executed => ∀ rec ∈ executed, Valid rec.tool_name := fun s hs => by
  refine ⟨((Runs.secures (runs_action (S := [.execute]) (by simp) (.execute_pending pending))
    (by decide)) s hs).1, fun executed s' hexec => forall_pending (fun call ctx hcall => ?_) hexec⟩
  rcases hcall with hcall | rfl
  · exact returns_named (h call hcall).1 ctx
  · exact returns_named Utf8.valid_nil ctx

theorem secures_run_calls {calls : List ToolCall} {registry : ToolRegistry W U}
    (h : UnicodeCalls calls) :
    Secures (Clean limit)
      (run_calls M calls (build_call_views registry calls) : RunM W U E _)
      fun records => ∀ rec ∈ records, Valid rec.tool_name := by
  unfold run_calls
  refine (secures_lookup_calls h).bind fun found hfound =>
    (secures_execute_pending hfound).bind fun executed hexecuted => ?_
  refine fun s hs => ⟨hs.of_eq rfl rfl, fun records s' hexec rec hrec => ?_⟩
  obtain rfl : splice calls found.1 executed found.2 = records :=
    Except.ok.inj (congrArg Prod.fst hexec)
  rcases mem_splice hrec with rfl | hrec | ⟨hit, -, rfl⟩
  · exact Utf8.valid_nil
  · exact hexecuted rec hrec
  · show Valid (calls.getD hit.1 {}).name
    rw [List.getD_eq_getElem?_getD]
    rcases hcall : calls[hit.1]? with _ | call
    · exact Utf8.valid_nil
    · exact (h call (List.mem_of_getElem? hcall)).1

theorem valid_resultBody {T : JsonText} (hT : T.Unicode) {rec : ToolExecutionRecord}
    (h : Valid rec.result.error_message) {body : Str} (hbody : resultBody T rec = .ok body) :
    Valid body := by
  unfold resultBody at hbody
  split_ifs at hbody
  · cases hbody
    exact h
  · exact hT.dump _ _ hbody

theorem unicode_toolMessage {rec : ToolExecutionRecord} {body : Str} (hname : Valid rec.tool_name)
    (hbody : Valid body) : (toolMessage rec body).Unicode where
  role := valid_lit (by decide)
  content := hbody
  tool_calls := fun j hj => by
    obtain rfl := Option.some.inj hj
    refine Json.unicode_ofFields (List.forall_mem_cons.2 ⟨?_, List.forall_mem_cons.2
      ⟨?_, List.forall_mem_singleton.2 ?_⟩⟩)
    · exact unicode_field (by decide) (Json.unicode_string.2 hname)
    · exact unicode_field (by decide) (Json.unicode_plain rfl)
    · exact unicode_field (by decide) (Json.unicode_plain rfl)

theorem secures_store_result (hT : M.text.Unicode) {body : Str} (hbody : Valid body)
    (hcut : CutFits limit body) :
    Secures (Clean limit) (store_result M.text body : RunM W U E _) Valid := fun s hs => by
  obtain ⟨hid, hcontext, hmax⟩ := hs.context.record hT "tool_result" hbody
    (hs.max_working_tokens ▸ hcut)
  refine ⟨⟨hs.events, hcontext, hmax.trans hs.max_working_tokens⟩, fun id s' hexec => ?_⟩
  obtain rfl := Except.ok.inj (congrArg Prod.fst hexec)
  exact hid

theorem secures_record_result (hT : M.text.Unicode) {chosen_tier : Tier} {views : List CallView}
    {rec : ToolExecutionRecord} (hname : Valid rec.tool_name)
    (herror : Valid rec.result.error_message)
    (hcut : ∀ body, resultBody M.text rec = .ok body → CutFits limit body) :
    Secures (Clean limit) (record_result M chosen_tier views rec : RunM W U E _)
      fun r => Valid r.1 ∧ r.2.Unicode := by
  unfold record_result
  refine (secures_apart fun _ => ⟨rfl, rfl⟩).bind fun _ _ => ?_
  refine (secures_record_two (by decide) (Json.unicode_string.2 hname) (by decide)
    (Json.unicode_plain rfl)).bind fun _ _ => ?_
  refine (secures_apart fun s => ?_).bind fun _ _ => ?_
  · dsimp only
    split_ifs <;> exact ⟨rfl, rfl⟩
  refine (Runs.secures (runs_action (M := M) (S := [.cacheResult]) (by simp)
    (.cache_result views rec)) (by decide)).bind fun _ _ => ?_
  refine (Secures.ofExcept fun body hbody => hbody).bind fun body hbody => ?_
  have hvalid := valid_resultBody hT herror hbody
  exact (secures_store_result hT hvalid (hcut body hbody)).bind fun id hid =>
    .pure ⟨hid, unicode_toolMessage hname hvalid⟩

/-- The messages and the ids of the facts are valid after every round. -/
theorem secures_record_results (hT : M.text.Unicode) {chosen_tier : Tier}
    {views : List CallView} :
    ∀ {records : List ToolExecutionRecord} {turn_ctx : TurnContext} {messages : Messages},
      (∀ rec ∈ records, Valid rec.tool_name ∧ Valid rec.result.error_message) →
      (∀ rec ∈ records, ∀ body, resultBody M.text rec = .ok body → CutFits limit body) →
      (∀ id ∈ turn_ctx.recent_tool_results, Valid id) → (∀ m ∈ messages, m.Unicode) →
      Secures (Clean limit)
        (record_results M chosen_tier views records turn_ctx messages : RunM W U E _)
        fun r => r.1.goal = turn_ctx.goal ∧ (∀ id ∈ r.1.recent_tool_results, Valid id)
          ∧ ∀ m ∈ r.2, m.Unicode
  | [], _, _, _, _, hids, hmessages => .pure ⟨rfl, hids, hmessages⟩
  | rec :: records, turn_ctx, messages, h, hcut, hids, hmessages => by
    obtain ⟨⟨hname, herror⟩, hrest⟩ := List.forall_mem_cons.1 h
    obtain ⟨hrec, hcut⟩ := List.forall_mem_cons.1 hcut
    unfold record_results
    refine (secures_record_result hT hname herror hrec).bind fun r hr => ?_
    exact secures_record_results hT hrest hcut
      (List.forall_mem_append.2 ⟨hids, List.forall_mem_singleton.2 hr.1⟩)
      (List.forall_mem_append.2 ⟨hmessages, List.forall_mem_singleton.2 hr.2⟩)

theorem unicode_feed_working_set {self : Orchestrator W U E} (h : self.context.Unicode)
    {messages : Messages} (hmessages : ∀ m ∈ messages, m.Unicode) {turn_ctx : TurnContext}
    (hgoal : Valid turn_ctx.goal) (hids : ∀ id ∈ turn_ctx.recent_tool_results, Valid id) :
    ∀ m ∈ feed_working_set self messages turn_ctx, m.Unicode := by
  unfold feed_working_set
  dsimp only
  split_ifs
  · exact hmessages
  · exact List.forall_mem_append.2 ⟨hmessages, List.forall_mem_singleton.2
      ⟨valid_lit (by decide), h.render hgoal hids, nofun⟩⟩

theorem secures_answered (l : Loop) (chosen_tier : Tier) {resp : ModelResponse}
    (huncut : PlanFits resp.outcome.plan) (hplan : Valid resp.outcome.plan) :
    Secures (Clean limit)
      ((Point.answered l chosen_tier (.ok resp)).block M task budget : RunM W U E Point)
      fun _ => True := by
  unfold Point.block
  have hshown : Valid (trim_for_log resp.outcome.plan) := huncut.trim hplan
  refine (secures_record_one (by decide) (Json.unicode_string.2 hshown)).bind fun _ _ =>
    (Runs.secures (runs_account (M := M) (S := [.tokens]) (by simp)) (by decide)).bind
      fun turn_cost _ => ?_
  dsimp only
  split
  · next reason hreason =>
    have hliteral : Valid reason := by
      unfold budget_exhausted at hreason
      split_ifs at hreason
      obtain rfl := Option.some.inj hreason
      exact valid_lit (by decide)
    exact (secures_record_two (by decide) (Json.unicode_string.2 hliteral) (by decide)
      (Json.unicode_plain rfl)).bind fun _ _ => .pure trivial
  · split_ifs
    · exact (secures_record_one (by decide) (Json.unicode_plain rfl)).bind fun _ _ => .pure trivial
    · exact (Secures.ofExcept fun _ _ => trivial).bind fun calls (_ : True) =>
        (secures_record_one (by decide) (Json.unicode_plain rfl)).bind fun _ _ => .pure trivial

theorem secures_reviewed (l : Loop) (chosen_tier : Tier) (calls : List ToolCall)
    (decision_tier : Tier) {response : Result ModelResponse}
    (h : ∀ resp, response = .ok resp → Valid resp.outcome.plan) :
    Secures (Clean limit)
      ((Point.reviewed l chosen_tier calls decision_tier response).block M task budget
        : RunM W U E Point) fun _ => True := by
  have hcascade : ∀ f : ModelCascade → ModelCascade, Secures (Clean limit)
      (modifySelf fun self => { self with cascade := f self.cascade } : RunM W U E Unit)
      fun _ => True := fun _ => secures_apart fun _ => ⟨rfl, rfl⟩
  cases response with
  | error err =>
    exact (hcascade fun c => c.record_failure decision_tier).bind fun _ _ => .pure trivial
  | ok resp =>
    unfold Point.block
    dsimp only
    split
    · exact .pure trivial
    · next plan hplan =>
      have hvalid := valid_overridePlan hplan (h resp rfl)
      refine (secures_record_one (by decide) (Json.unicode_string.2 hvalid)).bind fun _ _ =>
        (hcascade fun c => c.record_outcome decision_tier true).bind fun _ _ => ?_
      split_ifs
      · exact (secures_record_one (by decide) (Json.unicode_plain rfl)).bind fun _ _ =>
          .pure trivial
      · exact .pure trivial

theorem secures_calling {l : Loop} {chosen_tier : Tier} {calls : List ToolCall}
    (h : (Point.calling l chosen_tier calls).Unicode) :
    Secures (Clean limit)
      ((Point.calling l chosen_tier calls).block M task budget : RunM W U E Point)
      Point.Unicode := by
  refine (Secures.look fun _ _ => trivial).bind fun working (_ : True) =>
    (secures_record_one (by decide) (Json.unicode_plain rfl)).bind fun _ _ => ?_
  refine (Secures.look (Q := fun views => ∃ registry : ToolRegistry W U,
    views = build_call_views registry calls) fun s _ => ⟨_, rfl⟩).bind fun views hviews => ?_
  obtain ⟨registry, rfl⟩ := hviews
  exact (secures_run_calls h.2).bind fun records hrecords => .pure ⟨h.1, hrecords⟩

theorem secures_called (hT : M.text.Unicode) (htask : Valid task) {l : Loop} {chosen_tier : Tier}
    {views : List CallView} {records : List ToolExecutionRecord}
    (h : (Point.called l chosen_tier views records).Unicode)
    (herrors : ∀ rec ∈ records, Valid rec.result.error_message)
    (hcut : ∀ rec ∈ records, ∀ body, resultBody M.text rec = .ok body → CutFits limit body) :
    Secures (Clean limit)
      ((Point.called l chosen_tier views records).block M task budget : RunM W U E Point)
      Point.Unicode := by
  refine (secures_record_results hT (fun rec hrec => ⟨h.2 rec hrec, herrors rec hrec⟩) hcut
    (fun _ hid => absurd hid List.not_mem_nil) h.1).bind fun r hr => ?_
  exact (Secures.look (Q := fun messages : Messages => ∀ m ∈ messages, m.Unicode) fun s hs =>
    unicode_feed_working_set hs.context hr.2.2 (hr.1 ▸ htask) hr.2.1).bind fun messages hmessages =>
      .pure hmessages

/-- The paths of changed files are recorded as they are found. -/
theorem clean_observing {l : Loop} {s : Sys W U E} (hs : Clean limit s)
    (hsupplied : Supplied M (.ok (.observing l), s)) :
    Clean limit (((Point.observing l).block M task budget : RunM W U E Point).exec s).2 := by
  have happly : Clean limit ((apply_side_effects M : RunM W U E Unit).exec s).2 := by
    unfold apply_side_effects
    rw [Prog.exec_bind, Prog.exec_of]
    dsimp only
    split_ifs
    · exact hs
    · rcases hdiff : s.self.side_effects.diff M.platform s.world s.self.options.side_effect_root
        with e | changed
      · exact hs
      · dsimp only
        split_ifs
        · exact hs
        · have hpaths : (Json.array (changed.map .string)).Unicode :=
            Json.unicode_array.2 fun j hj => by
              obtain ⟨path, hpath, rfl⟩ := List.mem_map.1 hj
              exact Json.unicode_string.2 (hsupplied.paths hdiff path hpath)
          exact (((secures_record_one (by decide) hpaths).bind fun _ _ =>
            Runs.secures (runs_action (M := M) (S := [.invalidate]) (by simp)
              (.invalidate changed)) (by decide)) s hs).1
  unfold Point.block
  rw [Prog.exec_bind]
  rcases hexec : (apply_side_effects M : RunM W U E Unit).exec s with ⟨e | u, s'⟩
  · rwa [hexec] at happly
  · rwa [hexec] at happly

theorem clean_block (hT : M.text.Unicode) (htask : Valid task) {p : Point} {s : Sys W U E}
    (hs : Clean limit s) (hp : p.Unicode) (hsupplied : Supplied M (.ok p, s))
    (huncut : Uncut M (.ok p, s)) :
    Clean limit ((p.block M task budget : RunM W U E Point).exec s).2 := by
  cases p with
  | start =>
    exact (((secures_record_one (by decide) (Json.unicode_string.2 htask)).bind fun _ _ =>
      (Runs.secures (runs_action (M := M) (S := [.snapshot]) (by simp) .take_snapshot)
        (by decide)).bind fun _ _ => .pure (Q := fun _ => True) trivial) s hs).1
  | head l =>
    unfold Point.block
    dsimp only
    split
    · exact hs
    · exact (((secures_record_one (by decide) (Json.unicode_plain rfl)).bind fun _ _ =>
        .pure (Q := fun _ => True) trivial) s hs).1
  | asking | reviewing =>
    exact (Runs.secures (runs_block _) (by simp [Action.unheard]) s hs).1
  | answered l chosen_tier response =>
    cases response with
    | error err =>
      have herr : Valid err.message := hsupplied _ List.mem_cons_self
      exact (((secures_record_one (by decide) (Json.unicode_string.2 herr)).bind fun _ _ =>
        .pure (Q := fun _ => True) trivial) s hs).1
    | ok resp =>
      have hplan : Valid resp.outcome.plan := hsupplied _ List.mem_cons_self
      exact (secures_answered l chosen_tier huncut.plan hplan s hs).1
  | reviewed l chosen_tier calls decision_tier response =>
    refine (secures_reviewed l chosen_tier calls decision_tier (fun resp hresp => ?_) s hs).1
    subst hresp
    exact hsupplied _ List.mem_cons_self
  | calling l chosen_tier calls => exact (secures_calling hp s hs).1
  | called l chosen_tier views records =>
    have hcut := huncut.results hs.max_working_tokens
    exact (secures_called hT htask hp hsupplied.errors hcut s hs).1
  | observing l => exact clean_observing hs hsupplied
  | leaving result =>
    have hfinish : Secures (Clean limit) (finish result : RunM W U E _) fun _ => True := by
      unfold finish
      split_ifs
      · exact .pure trivial
      · exact (secures_record_one (by decide) (Json.unicode_plain rfl)).bind fun _ _ =>
          .pure trivial
    exact ((hfinish.bind fun _ _ => .pure (Q := fun _ => True) trivial) s hs).1
  | ended r => exact hs

theorem unicode_next (hT : M.text.Unicode) (htask : Valid task) {p q : Point} {s s' : Sys W U E}
    (hs : Clean limit s) (hp : p.Unicode) (hsupplied : Supplied M (.ok p, s))
    (huncut : Uncut M (.ok p, s)) (hfinal : p.final = false)
    (hexec : (p.block M task budget : RunM W U E Point).exec s = (.ok q, s')) : q.Unicode := by
  cases p with
  | calling l chosen_tier calls => exact (secures_calling hp s hs).2 q s' hexec
  | called l chosen_tier views records =>
    have hcut := huncut.results hs.max_working_tokens
    exact (secures_called hT htask hp hsupplied.errors hcut s hs).2 q s' hexec
  | _ =>
    exact hp.next htask hsupplied huncut (Point.next_block _ hfinal s q s' hexec) nofun nofun

/-! ## Runs -/

/-- After any number of moves of a run in which what comes in is valid and fits the cuts. -/
theorem clean_along (hT : M.text.Unicode) (htask : Valid task) {s : Sys W U E}
    (hs : Clean limit s) {ms : List (Config W U E × Config W U E)}
    (hms : ms <+: moves M task budget s)
    (hadmits : ∀ m ∈ ms, Supplied M m.1 ∧ Uncut M m.1) :
    Clean limit (Blocks.stop (.ok .start, s) ms).2
      ∧ ∀ p, (Blocks.stop (.ok .start, s) ms).1 = .ok p → p.Unicode := by
  refine Blocks.along (control M task budget)
    (Q := fun ms d => (∀ m ∈ ms, Supplied M m.1 ∧ Uncut M m.1) →
      Clean limit d.2 ∧ ∀ p, d.1 = .ok p → p.Unicode) ?_ ?_ hms hadmits
  · refine fun _ => ⟨hs, fun p hp => ?_⟩
    obtain rfl := Except.ok.inj hp
    trivial
  · intro ms d d' hQ hadvance hadmits
    obtain ⟨hbefore, hmove⟩ := List.forall_mem_append.1 hadmits
    obtain ⟨hsupplied, huncut⟩ := List.forall_mem_singleton.1 hmove
    obtain ⟨hclean, hpoint⟩ := hQ hbefore
    obtain ⟨_ | p, s₁⟩ := d
    · cases hadvance
    obtain ⟨hfinal, hexec⟩ := exec_of_advance hadvance
    have hp := hpoint p rfl
    refine ⟨?_, fun q hq => ?_⟩
    · rw [← hexec]
      exact clean_block hT htask hclean hp hsupplied huncut
    · obtain ⟨r, s₂⟩ := d'
      subst hq
      exact unicode_next hT htask hclean hp hsupplied huncut hfinal hexec

/-- In a run, the task and what comes in are valid and fit the cuts. -/
def ClientCall.Admitted (M : Machine W U) (s : Sys W U E) : ClientCall W U E → Prop
  | run task budget => Valid task ∧ ∀ m ∈ moves M task budget s, Supplied M m.1 ∧ Uncut M m.1
  | _ => True

/-- The systems that calls of this kind make of a new one. -/
inductive Served (M : Machine W U) (options : OrchestratorOptions) : Sys W U E → Prop
  | construct (source : Source E) (world : W) (env : E) :
    Served M options { self := construct options source, world := world, env := env }
  | call {s : Sys W U E} (h : Served M options s) (call : ClientCall W U E)
    (hcall : call.Admitted M s) : Served M options (call.exec M s)

theorem Served.clean (hT : M.text.Unicode) {options : OrchestratorOptions} {s : Sys W U E}
    (h : Served M options s) :
    Clean (ContextManager.new options.token_budget).max_working_tokens s := by
  induction h with
  | construct source world env =>
    cases source <;>
      exact ⟨fun e he => absurd he List.not_mem_nil, ContextManager.unicode_new _, rfl⟩
  | call h call hcall ih =>
    cases call with
    | run task budget =>
      have hrun := (clean_along hT hcall.1 ih (List.prefix_refl _) hcall.2).1
      rwa [stop_moves_snd] at hrun
    | set_provider tier provider =>
      cases provider <;> exact ih.of_eq rfl rfl
    | _ => exact ih.of_eq rfl rfl

/-- Wherever a run is, after other runs, the events and the messages about to be sent are valid if
what has come in is valid and no character was where a text was cut. -/
theorem outgoing_of_uncut (hT : M.text.Unicode) {options : OrchestratorOptions} {s : Sys W U E}
    (hs : Served M options s) (htask : Valid task) {ms : List (Config W U E × Config W U E)}
    (hms : ms <+: moves M task budget s) (hsupplied : ∀ m ∈ ms, Supplied M m.1)
    (huncut : ∀ m ∈ ms, Uncut M m.1) : Outgoing (Blocks.stop (.ok .start, s) ms) := by
  obtain ⟨hclean, hpoint⟩ :=
    clean_along hT htask (hs.clean hT) hms fun m hm => ⟨hsupplied m hm, huncut m hm⟩
  exact ⟨hclean.events, fun p hp => (hpoint p hp).requested⟩

/-- A file is read, and the run completes. -/
theorem outgoing_of_uncut_read :
    let s := treeStart [proposal "read_file" readTree, answer "CONFIRM", answer "done"]
    Outgoing (Blocks.stop (.ok .start, s) (moves treeMachine "task" {} s)) := by
  have hserved : Served treeMachine { side_effect_root := "ws" }
      (treeStart [proposal "read_file" readTree, answer "CONFIRM", answer "done"]) :=
    .call (.construct (.provider scripted) _ _) (.register_builtin (some .basic)) trivial
  have htable : treeMachine.text.Unicode := JsonText.unicode_ofTable (by decide +kernel)
  exact outgoing_of_uncut htable hserved (by decide +kernel) (List.prefix_refl _)
    (by decide +kernel) (by decide +kernel)

/-- A plan with a character of two bytes after 79 of one. -/
def longPlan : Str := List.replicate 79 97 ++ [0xC3, 0xA9]

/-- Everything that comes in is valid, and the log cuts the plan in the middle of the character. -/
theorem outgoing_cut :
    let s := scriptedStart {} [answer longPlan]
    Valid (lit "task")
      ∧ (∀ m ∈ moves (scriptedMachine (.ofTable [])) "task" {} s,
        Supplied (scriptedMachine (.ofTable [])) m.1)
      ∧ ¬ Outgoing (Blocks.stop (.ok .start, s)
          (moves (scriptedMachine (.ofTable [])) "task" {} s)) := by
  intro s
  have hevents : ¬ ∀ e ∈ (Blocks.stop (.ok .start, s)
      (moves (scriptedMachine (.ofTable [])) "task" {} s)).2.self.replay.events,
        e.payload.Unicode := by decide +kernel
  exact ⟨by decide, by decide +kernel, fun h => hevents h.events⟩

end Orchestrator

end Praxis
