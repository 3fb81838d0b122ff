import Praxis.Proofs.Extract
import Praxis.Proofs.Ledger
import Praxis.Proofs.Twins

/-!
# When the cache cannot be told

A cached output is that of an earlier success with the same name and arguments. As long as the file
of a call that repeats a success still holds what it held right after that, making the call again
would return the cached output and change nothing, so a run with the cache and a run without it come
to the same records and the same files.
-/

namespace Praxis

open Effect (Prog Sim SimIf Keeps)

variable {E : Type}

namespace Orchestrator

/-- Where each executed record is that of its call, the spliced ones are those of the calls. -/
theorem splice_map {W U : Type} {self : Orchestrator W U E} {calls : List ToolCall}
    (hnd : (calls.map (·.ordinal)).Nodup) (f : ToolCall → ToolExecutionRecord) :
    splice calls (self.misses calls) ((self.misses calls).map f) (self.hitsFrom 0 calls)
      = calls.map fun call => match self.hit? call with
        | some output => hitRecord call output
        | none => f call := by
  have hlen : ((self.misses calls).map f).length = (self.missIndices calls).length := by
    rw [List.length_map, misses_eq, List.length_map]
  refine List.ext_getElem? fun i => ?_
  by_cases hi : i < calls.length
  · have hget : calls.getD i {} = calls[i] := by simp [hi]
    rw [List.getElem?_map, List.getElem?_eq_getElem hi, Option.map_some]
    cases hhit : self.hit? calls[i] with
    | some output =>
      rw [← hget] at hhit
      rw [splice_hit hnd hlen hi hhit, hget]
    | none =>
      rw [← hget] at hhit
      obtain ⟨k, hk, rfl⟩ := List.mem_iff_getElem.1 (mem_missIndices.2 ⟨hi, hhit⟩)
      rw [splice_miss hnd hlen hk, misses_eq, List.map_map, List.getElem?_map,
        List.getElem?_eq_getElem hk, Option.map_some]
      simp [hi]
  · rw [List.getElem?_eq_none (by rw [splice_length]; omega),
      List.getElem?_eq_none (by rw [List.length_map]; omega)]

variable {F : FileSetup E} {L : List ToolExecutionRecord} {calls : List ToolCall}

/-- The record of a call in a turn that starts in this state. -/
def callRecord (F : FileSetup E) (s : Sys FlatFs Empty E) (call : ToolCall) :
    ToolExecutionRecord :=
  match s.self.hit? call with
  | some output => hitRecord call output
  | none => fileRecord F.text F.ctx s.world call

theorem exec_execute_pending {s : Sys FlatFs Empty E} (h : Fits F s.self)
    (hbatch : FileBatch F.text calls) :
    ∃ ex', (execute_pending F.machine calls).exec s
      = (.ok (calls.map (fileRecord F.text F.ctx s.world)),
        let self := s.self
        { s with
          self := { self with executor := ex' }
          world := afterRecords F.text s.world
            (calls.map (fileRecord F.text F.ctx s.world)) }) := by
  unfold execute_pending
  split_ifs with hempty
  · obtain rfl := List.isEmpty_iff.1 hempty
    exact ⟨s.self.executor, rfl⟩
  · obtain ⟨ex', hex⟩ : ∃ ex', ToolExecutor.execute F.machine.scheduler F.machine.platform
        s.self.registry s.self.executor calls s.self.tool_ctx s.world
        = (.ok (calls.map (fileRecord F.text F.ctx s.world)), ex',
          afterRecords F.text s.world (calls.map (fileRecord F.text F.ctx s.world))) := by
      rw [h.registry, h.tool_ctx]
      exact hbatch.execute F.basic F.scheduler s.self.executor s.world
    refine ⟨ex', ?_⟩
    rw [Prog.exec_of]
    simp only [hex]

theorem exec_run_calls {s : Sys FlatFs Empty E} (h : Fits F s.self)
    (hbatch : FileBatch F.text calls) (hnd : (calls.map (·.ordinal)).Nodup) :
    ∃ s₁ ex', LookedUp s s₁
      ∧ (run_calls F.machine calls (build_call_views F.registry calls)).exec s
        = (.ok (calls.map (callRecord F s)),
          let self := s₁.self
          { s₁ with
            self := { self with executor := ex' }
            world := afterRecords F.text s.world
              ((s.self.misses calls).map (fileRecord F.text F.ctx s.world))
            ledger := s.ledger ++ calls.map (callRecord F s) }) := by
  obtain ⟨s₁, hlookup, hl⟩ := exec_lookup_calls calls 0 s h.registry h.passive.quiet
  have hfits : Fits F s₁.self :=
    ⟨hl.registry.trans h.registry, hl.tool_ctx.trans h.tool_ctx, hl.passive h.passive⟩
  have hmisses : FileBatch F.text (s.self.misses calls) := hbatch.sublist List.filter_sublist
  obtain ⟨ex', hpending⟩ := exec_execute_pending hfits hmisses
  refine ⟨s₁, ex', hl, ?_⟩
  have hspliced : splice calls (s.self.misses calls)
      ((s.self.misses calls).map (fileRecord F.text F.ctx s.world)) (s.self.hitsFrom 0 calls)
      = calls.map (callRecord F s) := splice_map hnd _
  rw [hl.world] at hpending
  unfold run_calls
  simp only [Prog.exec_bind, Prog.exec_step, hlookup, hpending]
  rw [hspliced, hl.ledger]

theorem hit?_uncached {s : Sys FlatFs Empty E} (h : s.self.options.cache_tools = false)
    (call : ToolCall) : s.self.hit? call = none := by
  unfold hit?
  simp [h]

theorem misses_uncached {s : Sys FlatFs Empty E} (h : s.self.options.cache_tools = false)
    (calls : List ToolCall) : s.self.misses calls = calls :=
  List.filter_eq_self.2 fun call _ => by
    rw [hit?_uncached h]
    rfl

theorem callRecord_uncached {s : Sys FlatFs Empty E} (h : s.self.options.cache_tools = false) :
    callRecord F s = fileRecord F.text F.ctx s.world := by
  funext call
  unfold callRecord
  rw [hit?_uncached h]

/-- A call that the cache answers is settled: made on the files as they are, it would return what
the cache has and change nothing. -/
theorem hit_settled {s t : Sys FlatFs Empty E} (hst : Twins F L s t)
    (hbatch : FileBatch F.text calls)
    (hstable : Stable F.text F.files (L ++ calls.map (fileRecord F.text F.ctx t.world)))
    {call : ToolCall} (hcall : call ∈ calls) {output : Json}
    (hhit : s.self.hit? call = some output) :
    (fileRecord F.text F.ctx t.world call).result.ok = true
      ∧ (fileRecord F.text F.ctx t.world call).result.output = output
      ∧ (fileRecord F.text F.ctx t.world call).result.error_message = []
      ∧ (fileOutcome F.text F.ctx call t.world).2 = t.world := by
  obtain ⟨op, hop⟩ := hbatch.files call hcall
  have hanswer : s.self.cache.answer (call.name ++ "|" ++ call.arguments)
      (callView s.self.registry call).dependencies = some output := by
    unfold hit? at hhit
    dsimp only at hhit
    split_ifs at hhit
    exact hhit
  obtain ⟨entry, hentry, -, rfl⟩ := (Cache.answer_eq_some_iff _ _ _ _).1 hanswer
  obtain ⟨a, ha, hname, hargs, hok, houtput⟩ := hst.cached _ _ _ hop.name hentry
  rw [hst.holds] at hstable ⊢
  have hsettled := Stable.settled hst.sound hbatch hstable hcall ha hname hargs hok
  obtain ⟨h1, h2, h3⟩ := hsettled op (by rw [hname, hargs]; exact isFileOp_iff.1 hop)
  have hresult : (fileRecord F.text F.ctx (afterRecords F.text F.files L) call).result
      = (op.outcome F.ctx call.name (afterRecords F.text F.files L)).1 :=
    congrArg Prod.fst (hop.outcome_eq _)
  rw [hname] at h1 h2 h3
  rw [hresult, hop.outcome_eq]
  exact ⟨h1, h2.trans houtput, FileOp.outcome_message h1, h3⟩

/-- In a stable ledger the record of a call is the same whether or not the cache answers it. -/
theorem callRecord_alike {s t : Sys FlatFs Empty E} (hst : Twins F L s t)
    (hbatch : FileBatch F.text calls)
    (hstable : Stable F.text F.files (L ++ calls.map (fileRecord F.text F.ctx t.world)))
    {call : ToolCall} (hcall : call ∈ calls) :
    Alike (callRecord F s call) (fileRecord F.text F.ctx t.world call) := by
  unfold callRecord
  cases hhit : s.self.hit? call with
  | none =>
    rw [hst.world]
    exact ⟨rfl, rfl, rfl, rfl, rfl, rfl⟩
  | some output =>
    obtain ⟨hok, houtput, hmessage, -⟩ := hit_settled hst hbatch hstable hcall hhit
    exact ⟨rfl, rfl, rfl, hok.symm, houtput.symm, hmessage.symm⟩

/-- In a stable ledger the calls that the cache answers would have changed nothing. -/
theorem misses_world {s t : Sys FlatFs Empty E} (hst : Twins F L s t)
    (hbatch : FileBatch F.text calls)
    (hstable : Stable F.text F.files (L ++ calls.map (fileRecord F.text F.ctx t.world))) :
    afterRecords F.text t.world ((s.self.misses calls).map (fileRecord F.text F.ctx t.world))
      = afterRecords F.text t.world (calls.map (fileRecord F.text F.ctx t.world)) := by
  have hmisses : FileBatch F.text (s.self.misses calls) := hbatch.sublist List.filter_sublist
  have hwrote : Wrote F.text F.ctx (s.self.misses calls) t.world _ :=
    hmisses.wrote_afterRecords t.world
  refine Wrote.unique ⟨fun call hcall => ?_, fun path hpath => ?_⟩
    (hbatch.wrote_afterRecords t.world)
  · cases hhit : s.self.hit? call with
    | none => exact hwrote.files call (List.mem_filter.2 ⟨hcall, by simp [hhit]⟩)
    | some output =>
      rw [(hit_settled hst hbatch hstable hcall hhit).2.2.2]
      refine hwrote.others _ fun c hc he => ?_
      obtain ⟨hc, hmiss⟩ := List.mem_filter.1 hc
      obtain rfl := List.inj_on_of_nodup_map hbatch.distinct hc hcall he
      simp [hhit] at hmiss
  · exact hwrote.others path fun c hc => hpath c (List.mem_filter.1 hc).1

/-- The turn's calls, with the cache and without it. -/
theorem together_run_calls (hbatch : FileBatch F.text calls)
    (hnd : (calls.map (·.ordinal)).Nodup) :
    SimIf (fun t => Stable F.text F.files t.ledger) (Twins F L)
      (run_calls F.machine calls (build_call_views F.registry calls))
      (run_calls F.machine calls (build_call_views F.registry calls))
      (fun a b s t => ∃ L', List.Forall₂ (Paired L') a b ∧ Twins F L' s t) Ended := by
  intro s t hst hstable
  obtain ⟨s₁, ex, hl, hs⟩ := exec_run_calls hst.fits hbatch hnd
  obtain ⟨t₁, ex', hl', ht⟩ := exec_run_calls hst.fits' hbatch hnd
  rw [callRecord_uncached hst.uncached, misses_uncached hst.uncached] at ht
  rw [ht] at hstable ⊢
  rw [hs]
  dsimp only at hstable
  rw [hst.ledger'] at hstable
  have halike : ∀ call ∈ calls,
      Alike (callRecord F s call) (fileRecord F.text F.ctx t.world call) :=
    fun call hcall => callRecord_alike hst hbatch hstable hcall
  refine ⟨L ++ calls.map (fileRecord F.text F.ctx t.world), ?_, ?_⟩
  · refine List.forall₂_map_left_iff.2 (List.forall₂_map_right_iff.2 (List.forall₂_same.2 ?_))
    intro call hcall
    obtain ⟨op, hop⟩ := hbatch.files call hcall
    exact ⟨halike call hcall, List.mem_append_right _ (List.mem_map_of_mem hcall), hop.name⟩
  · refine { hst.lookedUp hl hl' with
      fits := { (hst.lookedUp hl hl').fits with }
      fits' := { (hst.lookedUp hl hl').fits' with }
      world := ?_
      ledger' := by rw [hst.ledger']
      ledger := ?_
      holds := ?_
      sound := ?_
      cached := (hst.lookedUp hl hl').cached.mono fun a ha => List.mem_append_left _ ha }
    · dsimp only
      rw [hst.world, misses_world hst hbatch hstable]
    · refine List.rel_append hst.ledger ?_
      exact List.forall₂_map_left_iff.2 (List.forall₂_map_right_iff.2 (List.forall₂_same.2 halike))
    · rw [afterRecords_append, ← hst.holds]
    · rw [hst.holds]
      exact hst.sound.append hbatch

/-- A ledger that is stable in the end was stable all along. -/
theorem stable_back {α : Type} {x : RunM FlatFs Empty E α} (h : Grows x) :
    Keeps (fun t t' => Stable F.text F.files t'.ledger → Stable F.text F.files t.ledger) x :=
  fun t hstable => hstable.of_prefix (h t)

theorem together_use_records {chosen_tier : Tier} {views : List CallView}
    {records records' : List ToolExecutionRecord} {turn_ctx : TurnContext} {ms ms' : Messages}
    (hrecords : List.Forall₂ (Paired L) records records') (hms : SameText ms ms') :
    Sim (Twins F L)
      (do
        let (turn_ctx, messages) ← record_results F.machine chosen_tier views records turn_ctx ms
        let messages ← Prog.step fun s => (feed_working_set s.self messages turn_ctx, s)
        apply_side_effects F.machine
        pure messages : RunM FlatFs Empty E Messages)
      (do
        let (turn_ctx, messages) ← record_results F.machine chosen_tier views records' turn_ctx ms'
        let messages ← Prog.step fun s => (feed_working_set s.self messages turn_ctx, s)
        apply_side_effects F.machine
        pure messages)
      (fun x y s t => SameText x y ∧ Twins F L s t) Ended := by
  refine Sim.bind (together_record_results hrecords hms) ?_
  rintro ⟨turn_ctx, ms⟩ ⟨turn_ctx', ms'⟩ s t ⟨rfl, hms, hst⟩
  refine Sim.bind (together_feed_working_set hms) ?_ s t hst
  rintro ms ms' s t ⟨hms, hst⟩
  exact together_bind together_apply_side_effects
    (fun _ _ => Sim.pure fun s t hst => ⟨hms, hst⟩) s t hst

theorem together_tool_phase {task : Str} {chosen_tier : Tier} {ms ms' : Messages}
    (hbatch : FileBatch F.text calls) (hnd : (calls.map (·.ordinal)).Nodup)
    (hms : SameText ms ms') :
    SimIf (fun t => Stable F.text F.files t.ledger) (Twins F L)
      (tool_phase F.machine task chosen_tier calls ms)
      (tool_phase F.machine task chosen_tier calls ms')
      (fun x y s t => SameText x y ∧ ∃ L', Twins F L' s t) Ended := by
  unfold tool_phase
  have hworking := together_step (F := F) (L := L) (P := fun _ => True)
    (f := fun s => (s.self.context.render_working_set { goal := task }, s))
    (g := fun s => (s.self.context.render_working_set { goal := task }, s))
    fun s t hst => ⟨by rw [hst.context], trivial, hst⟩
  have hviews := together_step (F := F) (L := L)
    (P := fun views => views = build_call_views F.registry calls)
    (f := fun s => (build_call_views s.self.registry calls, s))
    (g := fun s => (build_call_views s.self.registry calls, s))
    fun s t hst => ⟨by rw [hst.fits.registry, hst.fits'.registry], by rw [hst.fits.registry], hst⟩
  refine hworking.bindSameIf fun working _ => together_record.bindSameIf fun _ _ => ?_
  refine hviews.bindSameIf ?_
  rintro views rfl
  refine (together_run_calls hbatch hnd).bind (fun _ => stable_back grows_use_records) ?_
  rintro records records' s t ⟨L', hrecords, hst⟩ -
  exact (together_use_records hrecords hms s t hst).mono fun x y s t h => ⟨h.1, L', h.2⟩

/-- Two turns that end alike. -/
inductive SameEnd : TurnEnd → TurnEnd → Prop
  | next {ms ms' : Messages} (result : RunResult) (h : SameText ms ms') :
    SameEnd (.next result ms) (.next result ms')
  | returned (r : Result RunResult) : SameEnd (.returned r) (.returned r)
  | broken (result : RunResult) : SameEnd (.broken result) (.broken result)

theorem together_turn {task : Str} {budget : Budget} {i : UInt32} {result : RunResult}
    {ms ms' : Messages} (hms : SameText ms ms') :
    SimIf (fun t => Stable F.text F.files t.ledger) (Twins F L)
      (turn F.machine task budget i result ms) (turn F.machine task budget i result ms')
      (fun x y s t => SameEnd x y ∧ ∃ L', Twins F L' s t) Ended := by
  unfold turn
  refine together_record.bindSameIf fun _ _ => ?_
  refine (together_complete_and_observe hms).bindSameIf ?_
  rintro ⟨chosen_tier, response⟩ hproposes
  have hend : ∀ x : TurnEnd, SameEnd x x → Sim (Twins F L)
      (pure x : RunM FlatFs Empty E TurnEnd) (pure x)
      (fun x y s t => SameEnd x y ∧ ∃ L', Twins F L' s t) Ended :=
    fun x hx => Sim.pure fun s t hst => ⟨hx, L, hst⟩
  cases response with
  | error err => exact (together_bind together_record fun _ _ => hend _ (.returned _)).toIf
  | ok resp =>
    refine together_record.bindSameIf fun _ _ => together_account.bindSameIf fun turn_cost _ => ?_
    dsimp only
    split
    · exact (together_bind together_record fun _ _ => hend _ (.broken _)).toIf
    · split_ifs
      · exact (together_bind together_record fun _ _ => hend _ (.returned _)).toIf
      · refine together_ofExcept.bindSameIf fun calls hcalls => ?_
        refine together_record.bindSameIf fun _ _ => ?_
        refine (together_decision_review hms).bindSameIf fun review hreview => ?_
        cases review with
        | ended final_output => exact (hend _ (.returned _)).toIf
        | run calls' =>
          have hcalls' : FileBatch F.text calls' ∧ (calls'.map (·.ordinal)).Nodup := by
            rcases hreview calls' rfl with rfl | rfl
            · exact ⟨hproposes _ hcalls, extract_tool_calls_nodup hcalls⟩
            · exact ⟨.nil, List.nodup_nil⟩
          refine (together_tool_phase hcalls'.1 hcalls'.2 hms).bind
            (fun _ => stable_back grows_pure) ?_
          rintro ms ms' s t ⟨hms, hst⟩ -
          exact ⟨.next _ hms, hst⟩

theorem together_finish {result : RunResult} :
    Sim (Twins F L) (finish result) (finish result) (fun x y s t => x = y ∧ Ended s t) Ended := by
  unfold finish
  split_ifs
  · exact Sim.pure fun s t hst => ⟨rfl, hst.ended⟩
  · exact together_bind together_record fun _ _ => Sim.pure fun s t hst => ⟨rfl, hst.ended⟩

/-- The rest of the run, with the cache and without it. -/
theorem together_turns {task : Str} {budget : Budget} :
    ∀ {remaining : ℕ} {i : UInt32} {result : RunResult} {ms ms' : Messages}
      {L : List ToolExecutionRecord}, SameText ms ms' →
      SimIf (fun t => Stable F.text F.files t.ledger) (Twins F L)
        (turns F.machine task budget remaining i result ms)
        (turns F.machine task budget remaining i result ms')
        (fun x y s t => x = y ∧ Ended s t) Ended
  | 0, i, result, ms, ms', L, _ => together_finish.toIf
  | remaining + 1, i, result, ms, ms', L, hms => by
    unfold turns
    refine (together_turn hms).bind (fun ended => stable_back ?_) ?_
    · cases ended with
      | next result messages => exact grows_turns
      | returned r => exact grows_pure
      | broken result => exact grows_finish
    · rintro ended ended' s t ⟨hend, L', hst⟩ hstable
      cases hend with
      | next result h => exact together_turns h s t hst hstable
      | returned r => exact ⟨rfl, hst.ended⟩
      | broken result => exact together_finish s t hst

theorem together_take_snapshot :
    Together F L (take_snapshot F.machine) (take_snapshot F.machine) fun _ => True := by
  intro s t hst
  unfold take_snapshot
  rw [Prog.exec_of, Prog.exec_of]
  dsimp only
  rw [hst.root, hst.world]
  split_ifs
  · exact ⟨rfl, trivial, hst⟩
  · rcases SideEffectObserver.snapshot F.machine.platform t.world
      t.self.options.side_effect_root with e | side_effects
    · exact ⟨rfl, hst.ended⟩
    · exact ⟨rfl, trivial, { hst with
        fits := { hst.fits with }
        fits' := { hst.fits' with }
        side_effects := rfl
        world := rfl }⟩

theorem together_run {task : Str} {budget : Budget} :
    SimIf (fun t => Stable F.text F.files t.ledger) (Twins F L)
      (run F.machine task budget) (run F.machine task budget)
      (fun x y s t => x = y ∧ Ended s t) Ended := by
  unfold run
  refine together_record.bindSameIf fun _ _ => together_take_snapshot.bindSameIf fun _ _ => ?_
  exact together_turns rfl

/-! ## Runs with the cache and without it -/

def set_cache_tools {W U : Type} (self : Orchestrator W U E) (cache_tools : Bool) :
    Orchestrator W U E :=
  let options := self.options
  { self with options := { options with cache_tools := cache_tools } }

/-- A run on the files of the setting. -/
def runWith (F : FileSetup E) (cache_tools : Bool) (self : Orchestrator FlatFs Empty E) (env : E)
    (task : Str) (budget : Budget) : Except Exn (Result RunResult) × Sys FlatFs Empty E :=
  (run F.machine task budget).exec
    { self := self.set_cache_tools cache_tools, world := F.files, env := env }

/-- An orchestrator of the setting that has not cached anything, with scripted providers. -/
structure Fresh (F : FileSetup E) (o : Orchestrator FlatFs Empty E) (env : E) : Prop where
  fits : Fits F o
  cache : o.cache = {}
  scripted : ∀ rp ∈ o.retrying, ∀ p, rp.inner = some p → Scripted F.text F.view F.script p
  script : F.script (F.view env)

theorem Fresh.twins {self : Orchestrator FlatFs Empty E} {env : E} (h : Fresh F self env) :
    Twins F [] { self := self.set_cache_tools true, world := F.files, env := env }
      { self := self.set_cache_tools false, world := F.files, env := env } where
  fits := { h.fits with }
  fits' := { h.fits with }
  uncached := rfl
  root := rfl
  pricing := rfl
  retrying := rfl
  router := rfl
  context := rfl
  cascade := rfl
  side_effects := rfl
  scripted := h.scripted
  env := rfl
  script := h.script
  world := rfl
  ledger' := rfl
  ledger := .nil
  holds := rfl
  sound := fun _ hk => absurd hk (Nat.not_lt_zero _)
  cached := fun name args entry _ hentry => by
    have hnone : self.cache.entries.lookup (name ++ "|" ++ args) = some entry := hentry
    rw [h.cache] at hnone
    cases hnone

/-- If, in the run without the cache, every call that repeats a success finds its file as it was
right after that, the run with the cache comes to the same result, the same files and the same
records but for their `from_cache`. -/
theorem cache_transparent (F : FileSetup E) (self : Orchestrator FlatFs Empty E) (env : E)
    (task : Str) (budget : Budget) (h : Fresh F self env)
    (hstable : Stable F.text F.files (runWith F false self env task budget).2.ledger) :
    let cached := runWith F true self env task budget
    let uncached := runWith F false self env task budget
    cached.1 = uncached.1 ∧ cached.2.world = uncached.2.world
      ∧ List.Forall₂ Alike cached.2.ledger uncached.2.ledger := by
  obtain ⟨hresult, hended⟩ := (together_run _ _ h.twins hstable).agree
  exact ⟨hresult, hended.world, hended.ledger⟩

/-! ## A script that rereads and one that overwrites -/

/-- A step of a script that makes one call. -/
def callStep (name arguments : Str) : Json :=
  .ofFields
    [("plan", .string "go on"),
      ("tool_calls", .array [.ofFields [("name", .string name), ("arguments", .string arguments)]])]

def doneStep : Json := .ofFields [("plan", .string "done")]

def readA : Str := "\x7b\"path\":\"a\"\x7d"

def writeA (content : Str) : Str := "\x7b\"path\":\"a\",\"content\":\"" ++ content ++ "\"\x7d"

def fieldsA (content : Str) : Json :=
  .ofFields [("path", .string "a"), ("content", .string content)]

/-- The arguments of the calls, and the outputs as `dump` writes them. -/
def noteText : JsonText := .ofTable
  [(readA, .ofFields [("path", .string "a")]),
    ("\x7b\"content\":\"1\",\"path\":\"a\"\x7d", fieldsA "1"),
    ("\x7b\"content\":\"2\",\"path\":\"a\"\x7d", fieldsA "2"),
    (writeA "1", fieldsA "1"),
    (writeA "2", fieldsA "2"),
    ("\x7b\"bytes\":1,\"path\":\"a\"\x7d",
      .ofFields [("path", .string "a"), ("bytes", .number_unsigned 1)])]

/-- No files, and the built-in tools with a `BasicContext`. -/
def noteSetup : FileSetup FakeProvider where
  text := noteText
  below := fun _ _ => []
  scheduler := .inOrder
  base := {}
  tools_ctx := some .basic
  basic := rfl
  ctx := some .basic
  files := fun _ => none
  View := FakeProvider
  view := id
  script := fun self => ∀ step ∈ self.steps, ProposesFiles noteText step

def noteStart : Orchestrator FlatFs Empty FakeProvider :=
  (ofProvider FakeProvider.provider {}).register_builtin noteText noteSetup.machine.platform
    (some .basic)

theorem noteStart_fresh {steps : List Json} (h : ∀ step ∈ steps, ProposesFiles noteText step) :
    Fresh noteSetup noteStart { steps := steps } where
  fits := ⟨rfl, rfl, fun sink hsink => absurd hsink List.not_mem_nil⟩
  cache := rfl
  scripted := fun rp hrp p hp => by
    obtain rfl := List.mem_singleton.1 hrp
    obtain rfl := Option.some.inj hp
    exact FakeProvider.scripted noteText
  script := h

def rereads : List Json :=
  [callStep "write_file" (writeA "1"), callStep "read_file" readA, callStep "read_file" readA,
    doneStep]

theorem cache_transparent_rereads :
    let cached := runWith noteSetup true noteStart { steps := rereads } "task" {}
    let uncached := runWith noteSetup false noteStart { steps := rereads } "task" {}
    cached.1 = uncached.1 ∧ cached.2.world = uncached.2.world
      ∧ List.Forall₂ Alike cached.2.ledger uncached.2.ledger :=
  cache_transparent noteSetup noteStart { steps := rereads } "task" {}
    (noteStart_fresh (by decide +kernel)) (by decide +kernel)

/-- Reads `a`, overwrites it, reads it again and writes what was there first. -/
def overwrites : List Json :=
  [callStep "write_file" (writeA "1"), callStep "read_file" readA,
    callStep "write_file" (writeA "2"), callStep "read_file" readA,
    callStep "write_file" (writeA "1"), doneStep]

/-- With the cache, the second read returns what has been overwritten, and the last write is not
made. -/
theorem overwrites_told_apart :
    let cached := runWith noteSetup true noteStart { steps := overwrites } "task" {}
    let uncached := runWith noteSetup false noteStart { steps := overwrites } "task" {}
    Fresh noteSetup noteStart { steps := overwrites }
      ∧ (cached.2.ledger.getD 3 {}).result.output = fieldsA "1"
      ∧ (uncached.2.ledger.getD 3 {}).result.output = fieldsA "2"
      ∧ cached.2.world "a" = some (lit "2") ∧ uncached.2.world "a" = some (lit "1") :=
  ⟨noteStart_fresh (by decide +kernel), by decide +kernel⟩

end Orchestrator

end Praxis
