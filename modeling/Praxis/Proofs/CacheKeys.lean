import Praxis.Proofs.Control
import Praxis.Proofs.Frame
import Praxis.Proofs.Splice
import Praxis.Proofs.Stale

/-!
# Whose result a cache hit is

A key is a tool's name, a bar and the arguments, so a name that has a bar in it can make two calls
one key. As long as no two calls of a client are taken for one another, a cache hit returns what
was executed before for a call of the same name and the same arguments.
-/

namespace Praxis

/-- The longer name is the shorter one, a bar and a text that, with a bar after it, begins the
arguments of the shorter. -/
def Swallows (name args name' args' : Str) : Prop :=
  ∃ text, name' = name ++ "|" ++ text ∧ args = text ++ "|" ++ args'

theorem bar_eq_bar_iff (name args name' args' : Str) :
    name ++ "|" ++ args = name' ++ "|" ++ args'
      ↔ name = name' ∧ args = args' ∨ Swallows name args name' args'
        ∨ Swallows name' args' name args := by
  have hbar : lit "|" = [124] := by decide
  unfold Swallows
  rw [hbar]
  simp only [List.append_assoc, List.singleton_append]
  rw [List.append_eq_append_iff]
  constructor
  · rintro (⟨text, rfl, h⟩ | ⟨text, rfl, h⟩)
    · cases text with
      | nil => exact .inl ⟨(List.append_nil _).symm, (List.cons.inj h).2⟩
      | cons b text =>
        obtain ⟨rfl, rfl⟩ := List.cons.inj h
        exact .inr (.inl ⟨text, rfl, rfl⟩)
    · cases text with
      | nil => exact .inl ⟨List.append_nil _, (List.cons.inj h).2.symm⟩
      | cons b text =>
        obtain ⟨rfl, rfl⟩ := List.cons.inj h
        exact .inr (.inr ⟨text, rfl, rfl⟩)
  · rintro (⟨rfl, rfl⟩ | ⟨text, rfl, rfl⟩ | ⟨text, rfl, rfl⟩)
    · exact .inl ⟨[], by simp, rfl⟩
    · exact .inl ⟨124 :: text, rfl, rfl⟩
    · exact .inr ⟨124 :: text, rfl, rfl⟩

namespace Orchestrator

open Effect (Prog Blocks Keeps)

variable {W U E : Type} {M : Machine W U} {task : Str} {budget : Budget}
  {registry : ToolRegistry W U}

/-- The calls have the same dependencies, and one swallows the other. -/
def Mistaken (v v' : CallView) : Prop :=
  v.dependencies = v'.dependencies
    ∧ (Swallows v.name v.args v'.name v'.args ∨ Swallows v'.name v'.args v.name v.args)

theorem cache_key_eq_iff (v v' : CallView) :
    cache_key v = cache_key v' ↔ v.name = v'.name ∧ v.args = v'.args
      ∨ Swallows v.name v.args v'.name v'.args ∨ Swallows v'.name v'.args v.name v.args :=
  bar_eq_bar_iff _ _ _ _

theorem same_key_iff (v v' : CallView) :
    cache_key v = cache_key v' ∧ v.dependencies = v'.dependencies ↔ v = v' ∨ Mistaken v v' := by
  rw [cache_key_eq_iff]
  unfold Mistaken
  constructor
  · rintro ⟨⟨hname, hargs⟩ | h, hdeps⟩
    · refine .inl ?_
      cases v
      cases v'
      simp_all
    · exact .inr ⟨hdeps, h⟩
  · rintro (rfl | ⟨hdeps, h⟩)
    · exact ⟨.inl ⟨rfl, rfl⟩, rfl⟩
    · exact ⟨.inr h, hdeps⟩

/-- A record, with its call as the cache saw it. -/
abbrev Noted := CallView × ToolExecutionRecord

def note (registry : ToolRegistry W U) (r : ToolExecutionRecord) : Noted :=
  (callView registry { name := r.tool_name, arguments := r.arguments }, r)

/-- The records of the calls that a client's runs have made. -/
def noted (M : Machine W U) : List (ClientCall W U E) → Sys W U E → List Noted
  | [], _ => []
  | call :: calls, s =>
    ((call.exec M s).ledger.drop s.ledger.length).map (note s.self.registry)
      ++ noted M calls (call.exec M s)

/-- No two calls are taken for one another. -/
def ToldApart (N : List Noted) : Prop := ∀ x ∈ N, ∀ y ∈ N, ¬ Mistaken x.1 y.1

/-- The record says what was executed for the same call. -/
def Own (y x : Noted) : Prop :=
  y.1 = x.1 ∧ y.2.from_cache = false ∧ y.2.result.ok = true ∧ y.2.result.output = x.2.result.output

/-- What a record has from the cache was executed before for the same call. -/
def Owned (N : List Noted) : Prop :=
  ∀ before x after, N = before ++ x :: after → x.2.from_cache = true → ∃ y ∈ before, Own y x

theorem ToldApart.mono {N N' : List Noted} (h : ToldApart N') (hsub : N ⊆ N') : ToldApart N :=
  fun x hx y hy => h x (hsub hx) y (hsub hy)

theorem Owned.append {N N' : List Noted} (h : Owned N)
    (h' : ∀ x ∈ N', x.2.from_cache = true → ∃ y ∈ N, Own y x) : Owned (N ++ N') := by
  intro before x after he hx
  rcases List.append_eq_append_iff.1 he with ⟨between, rfl, rfl⟩ | ⟨between, rfl, hrest⟩
  · obtain ⟨y, hy, hown⟩ := h' x (by simp) hx
    exact ⟨y, List.mem_append_left _ hy, hown⟩
  · cases between with
    | nil =>
      obtain rfl := hrest
      obtain ⟨y, hy, hown⟩ := h' x (by simp) hx
      exact ⟨y, by simpa using hy, hown⟩
    | cons x' between =>
      obtain ⟨rfl, rfl⟩ := List.cons.inj hrest
      exact h before x between rfl hx

/-- A record that succeeded, executed or not, has one that was executed for the same call. -/
theorem Owned.exists_own {N : List Noted} (h : Owned N) {x : Noted} (hx : x ∈ N)
    (hok : x.2.result.ok = true) : ∃ y ∈ N, Own y x := by
  by_cases hcached : x.2.from_cache = true
  · obtain ⟨before, after, rfl⟩ := List.append_of_mem hx
    obtain ⟨y, hy, hown⟩ := h before x after rfl hcached
    exact ⟨y, List.mem_append_left _ hy, hown⟩
  · exact ⟨x, hx, rfl, by simpa using hcached, hok, rfl⟩

/-- The entry was put for the record. -/
structure EntryOf (x : Noted) (key : Str) (entry : CacheEntry) : Prop where
  executed : x.2.from_cache = false
  ok : x.2.result.ok = true
  key : key = cache_key x.1
  value : entry.value = x.2.result.output
  dependencies : entry.dependencies = x.1.dependencies

/-- Every entry was put for a record. -/
def Backed (N : List Noted) (cache : Cache) : Prop :=
  ∀ key entry, cache.entries.lookup key = some entry → ∃ x ∈ N, EntryOf x key entry

theorem Backed.congr {N N' : List Noted} {cache cache' : Cache} (h : Backed N cache)
    (hentries : cache'.entries = cache.entries) (hsub : N ⊆ N') : Backed N' cache' := by
  intro key entry hlookup
  rw [hentries] at hlookup
  obtain ⟨x, hx, hentry⟩ := h key entry hlookup
  exact ⟨x, hsub hx, hentry⟩

/-- What the cache answers was executed for a call with the same key. -/
theorem Backed.hit {N : List Noted} {self : Orchestrator W U E} (h : Backed N self.cache)
    {call : ToolCall} {output : Json} (hhit : self.hit? call = some output) :
    ∃ y ∈ N, y.2.from_cache = false ∧ y.2.result.ok = true ∧ y.2.result.output = output
      ∧ (y.1 = callView self.registry call ∨ Mistaken y.1 (callView self.registry call)) := by
  unfold hit? at hhit
  dsimp only at hhit
  split_ifs at hhit
  obtain ⟨entry, hlookup, hvalid, rfl⟩ := (Cache.answer_eq_some_iff _ _ _ _).1 hhit
  obtain ⟨y, hy, hentry⟩ := h _ _ hlookup
  unfold Cache.is_valid at hvalid
  simp only [Bool.and_eq_true, beq_iff_eq] at hvalid
  refine ⟨y, hy, hentry.executed, hentry.ok, hentry.value.symm, ?_⟩
  exact (same_key_iff _ _).1
    ⟨hentry.key.symm, hentry.dependencies.symm.trans hvalid.1.2.symm⟩

theorem Backed.cache_result {N : List Noted} {self : Orchestrator W U E}
    (h : Backed N self.cache) {views : List CallView}
    (hviews : ∀ v ∈ views, ∃ call, v = callView registry call) {rec : ToolExecutionRecord}
    (hrec : rec.result.ok = true → ∃ y ∈ N, Own y (note registry rec)) :
    Backed N (Orchestrator.cache_result views rec self).cache := by
  unfold Orchestrator.cache_result
  split_ifs with hok
  · split
    · next view hfind =>
      rw [Bool.and_eq_true] at hok
      obtain ⟨call, rfl⟩ := hviews view (List.mem_of_find?_eq_some hfind)
      obtain ⟨y, hy, hview, hexecuted, hyok, houtput⟩ := hrec hok.1
      have hsame : callView registry call = (note registry rec).1 := by
        have hcall := List.find?_some hfind
        simp only [callView, Bool.and_eq_true, beq_iff_eq] at hcall
        simp only [note, callView, hcall.1, hcall.2]
      intro key entry hlookup
      by_cases hkey : key = cache_key (callView registry call)
      · subst hkey
        simp only [Cache.put, AList.lookup_insert, Option.some.injEq] at hlookup
        subst hlookup
        exact ⟨y, hy, hexecuted, hyok, by rw [hview, hsame], houtput.symm, by rw [hview, hsame]⟩
      · simp only [Cache.put, AList.lookup_insert_ne hkey] at hlookup
        exact h key entry hlookup
    · exact h
  · exact h

/-- The parts of the system that the entries depend on stay as they are. -/
def Inert (s s' : Sys W U E) : Prop :=
  s'.ledger = s.ledger ∧ s'.self.cache.entries = s.self.cache.entries
    ∧ s'.self.registry = s.self.registry

theorem Inert.trans {s s' s'' : Sys W U E} (h : Inert s s') (h' : Inert s' s'') : Inert s s'' :=
  ⟨h'.1.trans h.1, h'.2.1.trans h.2.1, h'.2.2.trans h.2.2⟩

/-- The kinds of actions that add neither records nor entries. -/
def Action.inert : Action → Bool
  | ledger | cacheResult => false
  | _ => true

theorem inert_writes {k : Action} (hk : k.inert = true) {s s' : Sys W U E} (h : Writes k s s') :
    Inert s s' := by
  cases h with
  | lookup => exact ⟨rfl, Cache.get_entries _ _ _, rfl⟩
  | invalidate => exact ⟨rfl, invalidated_eq (fun _ _ => rfl) _ _, rfl⟩
  | ledger | cacheResult => cases hk
  | _ => exact ⟨rfl, rfl, rfl⟩

theorem Runs.inert {S : List Action} {α : Type} {x : RunM W U E α} (h : Runs M S x)
    (hS : ∀ k ∈ S, k.inert = true) : Keeps Inert x :=
  h.keepsWrites (R := Inert) (fun _ => ⟨rfl, rfl, rfl⟩) (fun _ _ _ => Inert.trans)
    fun k hk _ _ hw => inert_writes (hS k hk) hw

/-- What adds no records leaves the ledger and the registry as they are. -/
theorem Runs.unlisted {S : List Action} {α : Type} {x : RunM W U E α} (h : Runs M S x)
    (hS : .ledger ∉ S) :
    Keeps (fun s s' => s'.ledger = s.ledger ∧ s'.self.registry = s.self.registry) x := by
  refine h.keepsWrites (fun _ => ⟨rfl, rfl⟩) (fun _ _ _ h h' => ⟨h'.1.trans h.1, h'.2.trans h.2⟩)
    fun k hk _ _ hw => ?_
  cases hw with
  | ledger => exact absurd hk hS
  | _ => exact ⟨rfl, rfl⟩

def Stored (N : List Noted) (s s' : Sys W U E) : Prop :=
  Backed N s.self.cache → Backed N s'.self.cache

theorem Stored.trans {N : List Noted} {s s' s'' : Sys W U E} (h : Stored N s s')
    (h' : Stored N s' s'') : Stored N s s'' := fun hs => h' (h hs)

theorem Inert.stored {N : List Noted} {s s' : Sys W U E} (h : Inert s s') : Stored N s s' :=
  fun hs => hs.congr h.2.1 (List.Subset.refl N)

theorem stored_record_result {N : List Noted} {chosen_tier : Tier} {views : List CallView}
    (hviews : ∀ v ∈ views, ∃ call, v = callView registry call) {rec : ToolExecutionRecord}
    (hrec : rec.result.ok = true → ∃ y ∈ N, Own y (note registry rec)) :
    Keeps (Stored N) (record_result M chosen_tier views rec : RunM W U E _) := by
  have hbefore : ∀ {α : Type} {x : RunM W U E α}, Runs M [.record, .telemetry, .cascade, .store] x →
      Keeps (Stored N) x := fun hx s => (hx.inert (by decide) s).stored
  have hbind : ∀ {α β : Type} {x : RunM W U E α} {f : α → RunM W U E β}, Keeps (Stored N) x →
      (∀ a, Keeps (Stored N) (f a)) → Keeps (Stored N) (x >>= f) :=
    fun hx hf => .bind (r := Stored N) (fun _ _ _ => Stored.trans) hx hf
  unfold record_result
  refine hbind (hbefore (runs_action (by simp) (.record_tool_call _))) fun _ =>
    hbind (hbefore (runs_record (by simp))) fun _ => hbind (hbefore ?_) fun _ =>
      hbind (fun s hs => hs.cache_result hviews hrec) fun _ =>
        hbind (hbefore (.ofExcept _)) fun body =>
          hbind (hbefore (runs_action (by simp) (.store_result body))) fun _ => hbefore (.pure _)
  cases rec.result.ok with
  | true => exact .look _
  | false => exact runs_cascade (by simp) fun cascade => cascade.record_failure chosen_tier

theorem stored_record_results {N : List Noted} {chosen_tier : Tier} {views : List CallView}
    (hviews : ∀ v ∈ views, ∃ call, v = callView registry call) :
    ∀ {records : List ToolExecutionRecord} {turn_ctx : TurnContext} {messages : Messages},
      (∀ rec ∈ records, rec.result.ok = true → ∃ y ∈ N, Own y (note registry rec)) →
      Keeps (Stored N)
        (record_results M chosen_tier views records turn_ctx messages : RunM W U E _)
  | [], _, _, _ => fun _ hs => hs
  | rec :: _, _, _, hrecs => .bind (r := Stored N) (fun _ _ _ => Stored.trans)
      (stored_record_result hviews (hrecs rec List.mem_cons_self)) fun _ =>
        stored_record_results hviews fun r hr => hrecs r (List.mem_cons_of_mem _ hr)

/-- A record says of itself that it is from the cache only if it is the record of a hit. -/
theorem hit_of_mem_splice {self : Orchestrator W U E} {calls pending : List ToolCall}
    {executed : List ToolExecutionRecord} (hexecuted : ∀ r ∈ executed, r.from_cache = false)
    {r : ToolExecutionRecord} (hr : r ∈ splice calls pending executed (self.hitsFrom 0 calls))
    (hcached : r.from_cache = true) :
    ∃ call output, r = hitRecord call output ∧ self.hit? call = some output := by
  rcases mem_splice hr with rfl | hr | ⟨⟨j, output⟩, hj, rfl⟩
  · cases hcached
  · rw [hexecuted r hr] at hcached
    cases hcached
  · obtain ⟨k, rfl, hk, hhit⟩ := mem_hitsFrom.1 hj
    refine ⟨_, output, rfl, ?_⟩
    simpa [hk] using hhit

/-- A worker returns no record that says it is from the cache. -/
theorem invoke_one_executed (registry : ToolRegistry W U) (call : ToolCall)
    (ctx : Option (Ctx U)) :
    (invoke_one registry call ctx).run.Returns
      fun out => ∀ r, out = .ok r → r.from_cache = false := by
  unfold invoke_one
  split
  · exact .ret fun r hr => by cases hr; rfl
  · exact .ret fun r hr => by cases hr; rfl
  · refine (Interleave.Proc.returns_true _).bind fun out _ => ?_
    cases out with
    | error e => exact .ret fun r hr => by cases hr
    | ok result => exact .ret fun r hr => by cases hr; rfl

theorem executed_pending {pending : List ToolCall} {s s' : Sys W U E}
    {executed : List ToolExecutionRecord}
    (h : (execute_pending M pending).exec s = (.ok executed, s')) :
    ∀ r ∈ executed, r.from_cache = false :=
  forall_pending (fun _ _ _ => invoke_one_executed _ _ _) h

/-- The calls are looked up and the others executed; the entries stay. -/
theorem noted_run_calls {calls : List ToolCall} {s s' : Sys W U E}
    {records : List ToolExecutionRecord}
    (h : (run_calls M calls (build_call_views s.self.registry calls)).exec s
      = (.ok records, s')) :
    s'.ledger = s.ledger ++ records ∧ s'.self.cache.entries = s.self.cache.entries
      ∧ s'.self.registry = s.self.registry
      ∧ ∀ r ∈ records, r.from_cache = true →
        ∃ call output, r = hitRecord call output ∧ s.self.hit? call = some output := by
  unfold run_calls at h
  obtain ⟨found, s₁, h₁, h⟩ := Prog.exec_bind_eq_ok.1 h
  obtain ⟨executed, s₂, h₂, h⟩ := Prog.exec_bind_eq_ok.1 h
  obtain ⟨rfl, hl⟩ := lookup_calls_eq_ok rfl h₁
  have hexecuted := executed_pending h₂
  have hinert : Inert s₁ s₂ := by
    have hkeeps := Runs.inert (M := M) (S := [.execute])
      (runs_action (by simp) (.execute_pending (s.self.misses calls))) (by decide) s₁
    rwa [h₂] at hkeeps
  cases h
  refine ⟨?_, hinert.2.1.trans hl.entries, hinert.2.2.trans hl.registry,
    fun r hr hcached => hit_of_mem_splice hexecuted hr hcached⟩
  show s₂.ledger ++ _ = _
  rw [hinert.1, hl.ledger]

/-! ## A run -/

/-- What is noted of the records since the ledger `L₀`, after the notes `N`. -/
def notesSince (registry : ToolRegistry W U) (N : List Noted) (L : List ToolExecutionRecord) :
    List Noted := N ++ L.map (note registry)

/-- The records that are about to be gone over are noted, and the calls are seen as they are. -/
def Point.Noting (registry : ToolRegistry W U) (L : List ToolExecutionRecord) : Point → Prop
  | called _ _ views records =>
    (∀ v ∈ views, ∃ call, v = callView registry call) ∧ records ⊆ L
  | _ => True

/-- With the notes `N` before a run that has begun with the ledger `L₀`: as long as all calls are
told apart, what the cache has answered is owned and what it holds is backed. -/
structure Sound (registry : ToolRegistry W U) (N : List Noted) (L₀ : List ToolExecutionRecord)
    (c : Config W U E) : Prop where
  registry_eq : c.2.self.registry = registry
  noted : ∃ L, c.2.ledger = L₀ ++ L ∧ (∀ p, c.1 = .ok p → p.Noting registry L)
    ∧ (ToldApart (notesSince registry N L) →
      Owned (notesSince registry N L) ∧ Backed (notesSince registry N L) c.2.self.cache)

theorem Sound.inert {N : List Noted} {L₀ : List ToolExecutionRecord} {c c' : Config W U E}
    (h : Sound registry N L₀ c) (hinert : Inert c.2 c'.2)
    (hpoint : ∀ L p, c'.1 = .ok p → p.Noting registry L) : Sound registry N L₀ c' := by
  obtain ⟨L, hledger, -, hsound⟩ := h.noted
  refine ⟨hinert.2.2.trans h.registry_eq, L, hinert.1.trans hledger, hpoint L, fun hapart => ?_⟩
  obtain ⟨howned, hbacked⟩ := hsound hapart
  exact ⟨howned, hbacked.congr hinert.2.1 (List.Subset.refl _)⟩

/-- Every point but those at which calls are executed and records gone over. -/
def Point.inert : Point → Bool
  | calling _ _ _ | called _ _ _ _ => false
  | _ => true

theorem inert_block {p : Point} (hp : p.inert = true) :
    Keeps Inert (p.block M task budget : RunM W U E Point) := by
  refine (runs_block p).inert ?_
  cases p with
  | calling | called => cases hp
  | answered _ _ response => cases response <;> simp [Action.inert]
  | _ => simp [Action.inert]

/-- Only the execution of calls leads to records to go over. -/
theorem Point.Next.noting {p q : Point} (h : Point.Next M task budget p q)
    (hp : ∀ l chosen_tier calls, p ≠ .calling l chosen_tier calls) (L : List ToolExecutionRecord) :
    q.Noting registry L := by
  cases h with
  | call => exact absurd rfl (hp _ _ _)
  | _ => trivial

/-- A turn's calls that end in an exception leave no records. -/
theorem inert_of_throws {l : Loop} {chosen_tier : Tier} {calls : List ToolCall}
    {s s' : Sys W U E} {e : Exn}
    (h : ((Point.calling l chosen_tier calls).block M task budget).exec s = (.error e, s')) :
    Inert s s' := by
  have hinert : ∀ {α : Type} {x : RunM W U E α} {s s' : Sys W U E} {r : Except Exn α},
      Runs M [.lookup, .telemetry, .record, .execute] x → x.exec s = (r, s') → Inert s s' := by
    intro α x s s' r hx hexec
    have hkeeps := hx.inert (by decide) s
    rwa [hexec] at hkeeps
  rcases Prog.exec_bind_eq_error.1 h with h | ⟨working, s₁, h₁, h⟩
  · cases h
  cases h₁
  rcases Prog.exec_bind_eq_error.1 h with h | ⟨_, s₂, h₂, h⟩
  · exact hinert (runs_record (by simp)) h
  refine (hinert (runs_record (by simp)) h₂).trans ?_
  rcases Prog.exec_bind_eq_error.1 h with h | ⟨views, s₃, h₃, h⟩
  · cases h
  cases h₃
  rcases Prog.exec_bind_eq_error.1 h with h | ⟨_, _, _, h⟩
  · rcases Prog.exec_bind_eq_error.1 h with h | ⟨found, s₄, h₄, h⟩
    · exact hinert (runs_lookup_calls (by simp)) h
    refine (hinert (runs_lookup_calls (by simp)) h₄).trans ?_
    rcases Prog.exec_bind_eq_error.1 h with h | ⟨_, _, _, h⟩
    · exact hinert (runs_action (by simp) (.execute_pending _)) h
    · cases h
  · cases h

theorem Sound.call {N : List Noted} {L₀ : List ToolExecutionRecord} {l : Loop}
    {chosen_tier : Tier} {calls : List ToolCall} {q : Point} {s s' : Sys W U E}
    (h : Sound registry N L₀ (.ok (.calling l chosen_tier calls), s))
    (hexec : ((Point.calling l chosen_tier calls).block M task budget).exec s = (.ok q, s')) :
    Sound registry N L₀ (.ok q, s') := by
  obtain ⟨payload, s₁, records, h₁, h₂, rfl⟩ := exec_calling hexec
  have hl := lookedUp_record h₁
  obtain ⟨hledger, hentries, hregistry, hcached⟩ := noted_run_calls h₂
  obtain ⟨L, hL, -, hsound⟩ := h.noted
  have hreg : s₁.self.registry = registry := hl.registry.trans h.registry_eq
  refine ⟨hregistry.trans hreg, L ++ records, ?_, fun p hp => ?_, fun hapart => ?_⟩
  · rw [hledger, hl.ledger, hL, List.append_assoc]
  · obtain rfl := Except.ok.inj hp
    refine ⟨fun v hv => ?_, List.subset_append_right _ _⟩
    obtain ⟨call, -, rfl⟩ := List.mem_map.1 hv
    exact ⟨call, by rw [hreg]⟩
  · have hsplit : notesSince registry N (L ++ records)
        = notesSince registry N L ++ records.map (note registry) := by
      simp only [notesSince, List.map_append, List.append_assoc]
    rw [hsplit] at hapart ⊢
    have hsub : notesSince registry N L
        ⊆ notesSince registry N L ++ records.map (note registry) := List.subset_append_left _ _
    obtain ⟨howned, hbacked⟩ := hsound (hapart.mono hsub)
    refine ⟨howned.append fun x hx hx' => ?_, hbacked.congr (hentries.trans hl.entries) hsub⟩
    obtain ⟨r, hr, rfl⟩ := List.mem_map.1 hx
    obtain ⟨call, output, rfl, hhit⟩ := hcached r hr hx'
    obtain ⟨y, hy, hexecuted, hok, houtput, hview⟩ :=
      (hbacked.congr hl.entries (List.Subset.refl _)).hit hhit
    rw [hreg] at hview
    rcases hview with hview | hmistaken
    · exact ⟨y, hy, hview, hexecuted, hok, houtput⟩
    · exact absurd hmistaken (hapart y (hsub hy) _ (List.mem_append_right _ hx))

theorem Sound.move {N : List Noted} {L₀ : List ToolExecutionRecord} {c c' : Config W U E}
    (h : Sound registry N L₀ c) (hadvance : (control M task budget).advance c = some c') :
    Sound registry N L₀ c' := by
  obtain ⟨_ | p, s⟩ := c
  · cases hadvance
  have hexec := (exec_of_advance hadvance).2
  by_cases hcalling : ∃ l chosen_tier calls, p = .calling l chosen_tier calls
  · obtain ⟨l, chosen_tier, calls, rfl⟩ := hcalling
    obtain ⟨e | q, s'⟩ := c'
    · exact h.inert (inert_of_throws hexec) fun _ _ hp => by cases hp
    · exact h.call hexec
  · have hnoting : ∀ L q, c'.1 = .ok q → q.Noting registry L := fun L q hq => by
      obtain ⟨_, s'⟩ := c'
      obtain rfl : _ = Except.ok q := hq
      exact (next_of_advance hadvance).noting (fun l t calls hp => hcalling ⟨l, t, calls, hp⟩) L
    by_cases hinert : p.inert = true
    · have hblock : Keeps Inert (p.block M task budget : RunM W U E Point) := inert_block hinert
      have hkeeps := hblock s
      rw [hexec] at hkeeps
      exact h.inert hkeeps hnoting
    · cases p with
      | calling l chosen_tier calls => exact absurd ⟨_, _, _, rfl⟩ hcalling
      | called l chosen_tier views records =>
        obtain ⟨L, hledger, hpoint, hsound⟩ := h.noted
        obtain ⟨hviews, hsub⟩ := hpoint _ rfl
        have hblock : Runs M _ ((Point.called l chosen_tier views records).block M task budget
            : RunM W U E Point) := runs_block (.called l chosen_tier views records)
        have hunlisted := hblock.unlisted (by simp) s
        rw [hexec] at hunlisted
        refine ⟨hunlisted.2.trans h.registry_eq, L, hunlisted.1.trans hledger, hnoting L,
          fun hapart => ?_⟩
        obtain ⟨howned, hbacked⟩ := hsound hapart
        have hstored : Keeps (Stored (notesSince registry N L))
            ((Point.called l chosen_tier views records).block M task budget
              : RunM W U E Point) :=
          .bind (r := Stored (notesSince registry N L)) (fun _ _ _ => Stored.trans)
            (stored_record_results hviews fun rec hrec hok =>
              howned.exists_own (List.mem_append_right _ (List.mem_map_of_mem (hsub hrec))) hok)
            fun _ _ hs => hs
        have hkept := hstored s
        rw [hexec] at hkept
        exact ⟨howned, hkept hbacked⟩
      | _ => exact absurd rfl hinert

/-- At the end of a run, or where it has thrown, all is noted. -/
theorem sound_run {N : List Noted} {s : Sys W U E}
    (h : ToldApart N → Owned N ∧ Backed N s.self.cache) :
    let s' := ((run M task budget).exec s).2
    let N' := N ++ (s'.ledger.drop s.ledger.length).map (note s.self.registry)
    ToldApart N' → Owned N' ∧ Backed N' s'.self.cache := by
  have hstart : Sound s.self.registry N s.ledger ((.ok .start, s) : Config W U E) :=
    ⟨rfl, [], (List.append_nil _).symm, fun p hp => by cases hp; trivial, by
      simpa [notesSince] using h⟩
  have hend := Blocks.along (control M task budget)
    (Q := fun _ d => Sound s.self.registry N s.ledger d) hstart
    (fun _ _ _ hd hadvance => hd.move hadvance) (List.prefix_refl _)
  obtain ⟨L, hledger, -, hsound⟩ := hend.noted
  rw [← moves, stop_moves_snd] at hledger hsound
  intro s' N'
  have hdrop : s'.ledger.drop s.ledger.length = L := by
    rw [hledger, List.drop_left]
  simp only [N', hdrop]
  exact hsound

theorem sound_call {N : List Noted} {s : Sys W U E} (call : ClientCall W U E)
    (h : ToldApart N → Owned N ∧ Backed N s.self.cache) :
    let s' := call.exec M s
    let N' := N ++ (s'.ledger.drop s.ledger.length).map (note s.self.registry)
    ToldApart N' → Owned N' ∧ Backed N' s'.self.cache := by
  have hquiet : ∀ s' : Sys W U E, s'.ledger = s.ledger →
      s'.self.cache.entries = s.self.cache.entries →
      let N' := N ++ (s'.ledger.drop s.ledger.length).map (note s.self.registry)
      ToldApart N' → Owned N' ∧ Backed N' s'.self.cache := fun s' hledger hentries => by
    simp only [hledger, List.drop_length, List.map_nil, List.append_nil]
    exact fun hapart => ⟨(h hapart).1, (h hapart).2.congr hentries (List.Subset.refl _)⟩
  cases call with
  | run task budget => exact sound_run h
  | register_builtin | register_tool | attach_observer | set_executor_parallel
  | invalidate_cache_dependency => exact hquiet _ rfl rfl
  | set_provider tier provider => cases provider <;> exact hquiet _ rfl rfl

theorem sound_calls : ∀ (calls : List (ClientCall W U E)) {N : List Noted} {s : Sys W U E},
    (ToldApart N → Owned N ∧ Backed N s.self.cache) →
    ToldApart (N ++ noted M calls s) → Owned (N ++ noted M calls s)
  | [], N, s, h => by simpa [noted] using fun hapart => (h hapart).1
  | call :: calls, N, s, h => by
    have hrest := sound_calls calls (sound_call (M := M) call h)
    rwa [List.append_assoc] at hrest

/-- What is put for a call is returned for the same call and for those that are taken for it. -/
theorem answer_put_iff (v v' : CallView) (cache : Cache) (output : Json)
    (h : cache.entries.lookup (cache_key v') = none) :
    (cache.put (cache_key v) output v.dependencies true).answer (cache_key v') v'.dependencies
      = some output ↔ v = v' ∨ Mistaken v v' := by
  rw [← same_key_iff]
  constructor
  · intro hanswer
    obtain ⟨entry, hlookup, hvalid, -⟩ := (Cache.answer_eq_some_iff _ _ _ _).1 hanswer
    have hkey : cache_key v = cache_key v' := by
      by_contra hne
      simp only [Cache.put, AList.lookup_insert_ne (Ne.symm hne), h] at hlookup
      cases hlookup
    rw [← hkey] at hlookup
    simp only [Cache.put, AList.lookup_insert, Option.some.injEq] at hlookup
    subst hlookup
    exact ⟨hkey, ((Cache.is_valid_iff _ _ _).1 hvalid).2.1.symm⟩
  · rintro ⟨hkey, hdeps⟩
    rw [← hkey, ← hdeps]
    exact Cache.answer_put_self cache _ _ _

/-- A cache with nothing under the key of one call that stores a result of another returns it for
the one only if the two are the same or taken for one another, and as long as no calls of a client
are, what its runs have from the cache was executed before for the same call. -/
theorem hits_own (M : Machine W U) (calls : List (ClientCall W U E)) (s : Sys W U E)
    (hnew : s.self.cache.entries = ∅) :
    (∀ (v v' : CallView) (cache : Cache) (output : Json),
        cache.entries.lookup (cache_key v') = none →
        ((cache.put (cache_key v) output v.dependencies true).answer (cache_key v') v'.dependencies
          = some output ↔ v = v' ∨ Mistaken v v'))
      ∧ (ToldApart (noted M calls s) → Owned (noted M calls s)) := by
  refine ⟨answer_put_iff, fun hapart => ?_⟩
  have hempty : ToldApart ([] : List Noted) → Owned [] ∧ Backed [] s.self.cache := fun _ =>
    ⟨fun before x after he => by simp at he, fun key entry hlookup => by
      rw [hnew] at hlookup
      cases hlookup⟩
  simpa using sound_calls calls hempty (by simpa using hapart)

/-! ## A name with a bar in it -/

/-- Calls of the same name are not taken for one another. -/
theorem toldApart_of_name {N : List Noted} {name : Str} (h : ∀ x ∈ N, x.1.name = name) :
    ToldApart N := by
  have hlonger : ∀ args args', ¬ Swallows name args name args' := by
    rintro args args' ⟨text, htext, -⟩
    have hlength := congrArg List.length htext
    simp only [List.length_append] at hlength
    have hbar : (lit "|").length = 1 := by decide
    omega
  rintro x hx y hy ⟨-, hswallows⟩
  rw [h x hx, h y hy] at hswallows
  rcases hswallows with hswallows | hswallows <;> exact hlonger _ _ hswallows

/-- A file is read twice, the second time from the cache. -/
theorem hits_own_reread :
    let s := treeStart [proposal "read_file" readTree, answer "CONFIRM",
      proposal "read_file" readTree, answer "CONFIRM", answer "done"]
    let N := noted treeMachine [.run "task" {}] s
    (∃ x ∈ N, x.2.from_cache = true) ∧ Owned N := by
  intro s N
  have hname : ∀ x ∈ N, x.1.name = lit "read_file" := by decide +kernel
  exact ⟨by decide +kernel,
    (hits_own treeMachine [.run "task" {}] s rfl).2 (toldApart_of_name hname)⟩

/-- A tool that answers with its own name. -/
def namingTool (name : Str) : Tool FlatFs Empty where
  descriptor := { name := name, declared_resources := ["mcp"] }
  resources_for := default_resources_for { name := name, declared_resources := ["mcp"] }
  invoke := fun _ _ => pure { output := .string name }

/-- After `a|b` has been called with `c`, the call of `a` with `b|c` is answered by `a|b`. -/
theorem bar_not_own :
    let script := [proposal "a|b" "c", answer "CONFIRM", proposal "a" "b|c", answer "CONFIRM",
      answer "done"]
    let s := scriptedStart {} script
    let N := noted (scriptedMachine (.ofTable [("\"a|b\"", .string "a|b")]))
      [.register_builtin (some .basic), .register_tool (some (namingTool "a")),
        .register_tool (some (namingTool "a|b")), .run "task" {}] s
    s.self.cache.entries = ∅ ∧ ¬ Owned N := by
  intro script s N
  refine ⟨rfl, fun h => ?_⟩
  have hother : ∃ x ∈ N, x.2.from_cache = true ∧ ∀ y ∈ N, y.1 = x.1 → y.2.from_cache = true := by
    decide +kernel
  obtain ⟨x, hx, hcached, hall⟩ := hother
  obtain ⟨before, after, he⟩ := List.append_of_mem hx
  obtain ⟨y, hy, hview, hexecuted, -⟩ := h before x after he hcached
  rw [hall y (he ▸ List.mem_append_left _ hy) hview] at hexecuted
  cases hexecuted

end Orchestrator

end Praxis
