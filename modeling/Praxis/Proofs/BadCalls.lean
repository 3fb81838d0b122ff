import Praxis.Proofs.Dispatch
import Praxis.Proofs.Execution
import Praxis.Proofs.Unicode

/-!
# Calls that a tool cannot carry out

Whatever its arguments are, a call should end in a result, and in a failed one where they are bad.
It does exactly for the calls that are `Sound`: `read_file` and `write_file` throw at a field that
is no string, `read_file` and `shell` let through what their context throws, and a remote tool sends
what is no object. A batch of sound calls has one record for each, all of them counted
(`handled_iff`).
-/

namespace Praxis

open Interleave (Proc)
open Utf8 (Valid)

namespace ToolM

variable {W α β : Type}

/-- Whatever the world does, the code returns a value that satisfies `Q`; it does not throw. -/
def Yields (Q : α → Prop) (x : ToolM W α) : Prop := x.run.Returns fun r => ∃ a, r = .ok a ∧ Q a

theorem yields_mk {Q : α → Prop} {r : Except Exn α} :
    Yields Q (ExceptT.mk (pure r) : ToolM W α) ↔ ∃ a, r = .ok a ∧ Q a := Proc.returns_ret_iff

theorem yields_pure {Q : α → Prop} {a : α} : Yields Q (pure a : ToolM W α) ↔ Q a := by
  refine yields_mk.trans ⟨?_, fun h => ⟨a, rfl, h⟩⟩
  rintro ⟨b, hb, h⟩
  rwa [Except.ok.inj hb]

theorem yields_bind {Q : β → Prop} {x : ToolM W α} {f : α → ToolM W β} :
    Yields Q (x >>= f) ↔ Yields (fun a => Yields Q (f a)) x := by
  refine Proc.returns_bind_iff.trans ⟨fun h => h.mono ?_, fun h => h.mono ?_⟩
  · rintro (e | a) hr
    · obtain ⟨b, hb, -⟩ := Proc.returns_ret_iff.1 hr
      cases hb
    · exact ⟨a, rfl, hr⟩
  · rintro _ ⟨a, rfl, ha⟩
    exact ha

theorem yields_step {Q : α → Prop} {f : W → α × W} :
    Yields Q (ExceptT.lift (Proc.step f) : ToolM W α) ↔ ∀ w, Q (f w).1 := by
  refine Proc.returns_act_iff.trans (forall_congr' fun w => ?_)
  exact yields_pure

/-- With a handler that returns nothing is thrown. -/
theorem yields_tryCatch {Q : α → Prop} {x : ToolM W α} {g : Exn → α}
    (h : x.run.Returns fun r => match r with
      | .ok a => Q a
      | .error e => Q (g e)) :
    Yields Q (tryCatch x fun e => pure (g e)) := by
  refine Proc.returns_bind_iff.2 (h.mono ?_)
  rintro (e | a) hr
  · exact yields_pure.2 hr
  · exact yields_pure.2 hr

/-- Whatever the world does, the code throws. -/
def Throws (x : ToolM W α) : Prop := x.run.Returns fun r => ∃ e, r = .error e

theorem Throws.bind {x : ToolM W α} {f : α → ToolM W β} (h : Throws x) : Throws (x >>= f) := by
  refine Proc.returns_bind_iff.2 (Proc.Returns.mono h ?_)
  rintro _ ⟨e, rfl⟩
  exact .ret ⟨e, rfl⟩

theorem throws_step {f : W → Except Exn α × W} (h : ∀ w, ∃ e, (f w).1 = .error e) :
    Throws (ExceptT.mk (Proc.step f)) :=
  Proc.returns_act_iff.2 fun w => Proc.returns_ret_iff.2 (h w)

theorem Yields.mono {P Q : α → Prop} {x : ToolM W α} (h : Yields P x) (hPQ : ∀ a, P a → Q a) :
    Yields Q x := Proc.Returns.mono h fun _ ⟨a, hr, ha⟩ => ⟨a, hr, hPQ a ha⟩

theorem Yields.exec {Q : α → Prop} {x : ToolM W α} (h : Yields Q x) (w : W) :
    ∃ a, (x.exec w).1 = .ok a ∧ Q a := Proc.Returns.run h w

end ToolM

/-- What the client relies on: what can be written is what is Unicode, and only that is read; the
empty object can be read. -/
structure JsonText.Exact (T : JsonText) : Prop where
  dump : ∀ j, (∃ text, T.dump j = .ok text) ↔ j.Unicode
  parse : ∀ s j, T.parse s = some j → j.Unicode
  empty : T.parse "\x7b\x7d" = some (.object [])

/-- The tools that the engine itself makes. -/
inductive EngineTool (U : Type)
  | read_file (ctx_ : Option (Ctx U))
  | write_file
  | shell (ctx_ : Option (Ctx U))
  | mcp (name : Str) (client : Option ℕ) (prefix_ : Str)

namespace EngineTool

variable {W U : Type} (T : JsonText) (P : ℕ → JsonRpcTransport W) (library : Exn → Str)
  (Q : Platform (McpWorld W) U)

def tool : EngineTool U → Tool (McpWorld W) U
  | read_file ctx_ => ReadFileTool T Q ctx_
  | write_file => WriteFileTool T Q
  | shell ctx_ => ShellTool T Q ctx_
  | mcp name client prefix_ => McpTool T P library name client prefix_

/-- A field of the arguments of a call. -/
def argument? (T : JsonText) (call : ToolCall) (key : Str) : Option Json :=
  (T.parse call.arguments).bind fun args => args.field? key

/-- The arguments are a JSON object with the required fields of the required types. What a remote
tool requires beyond an object, its server checks. -/
def WellFormed (T : JsonText) (call : ToolCall) : EngineTool U → Prop
  | read_file _ => ∃ path, argument? T call "path" = some (.string path)
  | write_file => ∃ path content, argument? T call "path" = some (.string path)
      ∧ argument? T call "content" = some (.string content)
  | shell _ => ∃ program, ∃ argv : List Str, argument? T call "program" = some (.string program)
      ∧ argument? T call "args" = some (.array (argv.map .string))
  | mcp _ _ _ => ∃ fields, T.parse call.arguments = some (.object fields)

/-- Whatever the world does, the tool returns, with a failure if the arguments are not well
formed. -/
def Handles (t : EngineTool U) (call : ToolCall) : Prop :=
  ∀ ctx, ((t.tool T P library Q).invoke call ctx).Yields fun result =>
    ¬ t.WellFormed T call → result.ok = false

/-- The context can be asked for a file: it does not throw when it reads, nor when it looks whether
there is a file that it has found empty. -/
def Readable (ctx : Ctx U) (path : Str) : Prop :=
  (ctx.read_file Q path).Yields fun content =>
    content.isEmpty = true → (ctx.file_exists Q path).Yields fun _ => True

/-- What the code does not check is as it should be: the types of the fields of a file call, the
context, and that what a remote tool sends is an object. -/
def Sound (call : ToolCall) : EngineTool U → Prop
  | read_file ctx_ => ∀ path, argument? T call "path" = some path →
      ∃ s, path = .string s ∧ ∀ ctx, Readable Q (ctx_.getD ctx) s
  | write_file => ∀ path content, argument? T call "path" = some path →
      argument? T call "content" = some content →
        (∃ s, path = .string s) ∧ ∃ s, content = .string s
  | shell ctx_ => ∀ program, ∀ argv : List Str,
      argument? T call "program" = some (.string program) →
      argument? T call "args" = some (.array (argv.map .string)) →
        ∀ ctx, ((ctx_.getD ctx).exec_argv Q program argv).Yields fun _ => True
  | mcp _ client prefix_ => ∀ j, T.parse call.arguments = some j → client.isSome →
      Valid (McpTool.remote_name prefix_ call.name) → ∃ fields, j = .object fields

variable {T : JsonText} {P : ℕ → JsonRpcTransport W} {library : Exn → Str}
  {Q : Platform (McpWorld W) U} {call : ToolCall} {ctx_ : Option (Ctx U)} {client : Option ℕ}
  {name prefix_ : Str}

theorem arguments_bind {first second : Str} :
    ((argument? T call first).bind fun p => (argument? T call second).map fun c => (p, c))
      = (T.parse call.arguments).bind fun args =>
          (args.field? first).bind fun p => (args.field? second).map fun c => (p, c) := by
  unfold argument?
  cases T.parse call.arguments <;> rfl

theorem yields_failed {W : Type} {message : Str} {p : Prop} :
    (pure (.failed message) : ToolM W ToolResult).Yields fun result => ¬ p → result.ok = false :=
  ToolM.yields_pure.2 fun _ => rfl

/-- Where the arguments are well formed only the question is left whether the tool returns. -/
theorem yields_wellFormed {W : Type} {x : ToolM W ToolResult} {p : Prop} (hp : p) :
    (x.Yields fun result => ¬ p → result.ok = false) ↔ x.Yields fun _ => True :=
  ⟨fun h => h.mono fun _ _ => trivial, fun h => h.mono fun _ _ hnp => absurd hp hnp⟩

theorem getString_eq_ok {j : Json} {s : Str} : j.getString = .ok s ↔ j = .string s := by
  cases j <;> simp [Json.getString]

theorem handles_read_file_iff : Handles T P library Q (read_file ctx_) call
    ↔ Sound T Q call (read_file ctx_) := by
  unfold Handles Sound tool ReadFileTool ReadFileTool.invoke
  dsimp only
  rw [← argument?]
  rcases hpath : argument? T call "path" with _ | path
  · exact iff_of_true (fun _ => yields_failed) nofun
  simp only [Option.some.injEq, forall_eq', ToolM.yields_bind (f := fun _ : Str => _),
    ToolM.yields_mk, getString_eq_ok]
  constructor
  · intro h
    obtain ⟨s, rfl, -⟩ := h .basic
    refine ⟨s, rfl, fun ctx => ?_⟩
    obtain ⟨s', hs', hread⟩ := h ctx
    obtain rfl := Json.string.inj hs'
    refine hread.mono fun content hcontent hempty => ?_
    rw [if_pos hempty] at hcontent
    exact (ToolM.yields_bind.1 hcontent).mono fun _ _ => trivial
  · rintro ⟨s, rfl, h⟩ ctx
    refine ⟨s, rfl, (h ctx).mono fun content hcontent => ?_⟩
    rw [yields_wellFormed ⟨s, hpath⟩]
    split_ifs with hempty
    · refine ToolM.yields_bind.2 ((hcontent hempty).mono fun found _ => ?_)
      cases found <;> exact ToolM.yields_pure.2 trivial
    · exact ToolM.yields_pure.2 trivial

/-- A write to the file system returns, whatever comes of it. -/
theorem yields_store (path content : Str) :
    (WriteFileTool.store Q path content).Yields fun _ => True := by
  unfold WriteFileTool.store
  simp only [ToolM.yields_bind, ToolM.yields_step]
  intro w w'
  split_ifs
  · simp only [ToolM.yields_bind, ToolM.yields_step]
    intro w''
    split_ifs <;> exact ToolM.yields_pure.2 trivial
  · exact ToolM.yields_pure.2 trivial

theorem handles_write_file_iff : Handles T P library Q write_file call
    ↔ Sound T Q call write_file := by
  unfold Handles Sound tool WriteFileTool WriteFileTool.invoke
  dsimp only
  rw [← arguments_bind]
  rcases hpath : argument? T call "path" with _ | path
  · exact iff_of_true (fun _ => yields_failed) nofun
  rcases hcontent : argument? T call "content" with _ | content
  · exact iff_of_true (fun _ => yields_failed) nofun
  simp only [Option.some.injEq, Option.bind_some, Option.map_some, ToolM.yields_bind,
    ToolM.yields_mk, getString_eq_ok]
  constructor
  · rintro h path' content' rfl rfl
    obtain ⟨s, hs, s', hs', -⟩ := h .basic
    exact ⟨⟨s, hs⟩, s', hs'⟩
  · intro h ctx
    obtain ⟨⟨s, rfl⟩, s', rfl⟩ := h path content rfl rfl
    refine ⟨s, rfl, s', rfl, ?_⟩
    rw [yields_wellFormed ⟨s, s', hpath, hcontent⟩]
    exact yields_store s s'

theorem argv_eq_some : ∀ {entries : List Json} {argv : List Str},
    ShellTool.argv entries = some argv ↔ entries = argv.map .string
  | [], argv => by simp [ShellTool.argv, eq_comm]
  | entry :: entries, argv => by
    have hrest : ∀ argv, ShellTool.argv entries = some argv ↔ entries = argv.map .string :=
      fun _ => argv_eq_some
    unfold ShellTool.argv at hrest ⊢
    rw [List.mapM_cons, @eq_comm _ (entry :: entries), List.map_eq_cons_iff]
    cases entry with
    | string s =>
      simp only [Option.bind_eq_bind, Option.bind_some, Option.bind_eq_some_iff, hrest]
      constructor
      · rintro ⟨argv', rfl, h⟩
        exact ⟨s, argv', (Option.some.inj h).symm, rfl, rfl⟩
      · rintro ⟨s', argv', rfl, hs, rfl⟩
        exact ⟨argv', rfl, by rw [Json.string.inj hs]; rfl⟩
    | _ => simp

theorem handles_shell_iff : Handles T P library Q (shell ctx_) call
    ↔ Sound T Q call (shell ctx_) := by
  unfold Handles Sound tool ShellTool ShellTool.invoke
  dsimp only
  rw [← arguments_bind]
  rcases hprogram : argument? T call "program" with _ | program
  · exact iff_of_true (fun _ => yields_failed) nofun
  rcases hargs : argument? T call "args" with _ | args
  · exact iff_of_true (fun _ => yields_failed) nofun
  simp only [Option.some.injEq, Option.bind_some, Option.map_some]
  cases program with
  | string s =>
    cases args with
    | array entries =>
      dsimp only
      rcases hargv : ShellTool.argv entries with _ | argv
      · refine iff_of_true (fun _ => yields_failed) ?_
        rintro s' argv - hentries
        rw [argv_eq_some.2 (Json.array.inj hentries)] at hargv
        cases hargv
      · obtain rfl := argv_eq_some.1 hargv
        simp only [yields_wellFormed (show WellFormed T call (shell ctx_) from
          ⟨s, argv, hprogram, hargs⟩), ToolM.yields_bind, ToolM.yields_pure]
        constructor
        · rintro h s' argv' hs hargv'
          have hstrings := (List.map_injective_iff.2 @Json.string.inj) (Json.array.inj hargv')
          rwa [← Json.string.inj hs, ← hstrings]
        · exact fun h => h s argv rfl rfl
    | _ => exact iff_of_true (fun _ => yields_failed) nofun
  | _ => exact iff_of_true (fun _ => yields_failed) nofun

/-- The parameters of a call of the server. -/
def callParams (name : Str) (params : Json) : Json :=
  .ofFields [("name", .string name), ("arguments", params)]

theorem unicode_callRequest {id : ℤ} {name : Str} {params : Json} :
    (JsonRpcClient.requestJson id "tools/call" (callParams name params)).Unicode
      ↔ Valid name ∧ params.Unicode := by
  have heq : JsonRpcClient.requestJson id "tools/call" (callParams name params)
      = .object [("id", .number_integer id), ("jsonrpc", .string "2.0"),
          ("method", .string "tools/call"),
          ("params", .object [("arguments", params), ("name", .string name)])] := rfl
  rw [heq]
  simp only [Json.unicode_object, Json.UnicodeFields, List.forall_mem_cons, Json.unicode_string]
  constructor
  · rintro ⟨-, -, -, ⟨-, ⟨-, hparams⟩, ⟨-, hname⟩, -⟩, -⟩
    exact ⟨hname, hparams⟩
  · rintro ⟨hname, hparams⟩
    exact ⟨⟨valid_lit (by decide), Json.unicode_plain rfl⟩,
      ⟨valid_lit (by decide), valid_lit (by decide)⟩,
      ⟨valid_lit (by decide), valid_lit (by decide)⟩,
      ⟨valid_lit (by decide), ⟨valid_lit (by decide), hparams⟩, ⟨valid_lit (by decide), hname⟩,
        List.forall_mem_nil _⟩, List.forall_mem_nil _⟩

/-- A server that answers everything with an empty object. -/
def agreeing (W : Type) : ℕ → JsonRpcTransport W := fun _ =>
  { send := fun _ w => (.ok (), w)
    receive := fun w => (.ok "\x7b\x7d", w) }

/-- A name that is not valid cannot be sent. -/
theorem throws_callTool (hT : T.Exact) {params : Json} (hname : ¬ Valid name) (c : ℕ) :
    (McpTool.callTool T P c (callParams name params)).Throws := by
  refine (ToolM.throws_step fun w => ?_).bind
  unfold McpWorld.onClient
  dsimp only
  rcases hsent : (JsonRpcClient.sendRequest T (P (w.clients c).transport) "tools/call"
    (callParams name params)).exec (w.client c) with ⟨e | id, w'⟩
  · exact ⟨e, rfl⟩
  · obtain ⟨x', ⟨text, htext, -⟩, -⟩ := JsonRpcClient.sendRequest_eq_ok.1 hsent
    exact absurd (unicode_callRequest.1 ((hT.dump _).1 ⟨text, htext⟩)).1 hname

theorem exec_callTool_agreeing (hT : T.Exact) {params : Json} (hname : Valid name)
    (hparams : params.Unicode) (c : ℕ) (w : McpWorld W) :
    ((McpTool.callTool T (agreeing W) c (callParams name params)).exec w).1 = .ok (.object []) := by
  obtain ⟨text, htext⟩ := (hT.dump _).2 (unicode_callRequest.2 ⟨hname, hparams⟩)
  have hanswers : JsonRpcClient.Answers T (agreeing W (w.clients c).transport)
      (w.client c).next_id "tools/call" (callParams name params) w.world (.object []) w.world :=
    ⟨w.world, "\x7b\x7d", .object [], ⟨text, htext, rfl⟩, rfl, by decide, hT.empty, ⟨[], rfl⟩,
      .inl rfl, rfl⟩
  have hcall := JsonRpcClient.call_eq_ok.2 ⟨w.world, hanswers, rfl⟩
  rw [McpTool.exec_callTool, show (JsonRpcClient.call _ _ _ _).exec (w.client c) = _ from hcall]

section Sending

variable {c : ℕ} {params : Json}

/-- A server that answers everything is content with anything. -/
theorem object_of_handles [Inhabited W] (hT : T.Exact)
    (hparse : T.parse call.arguments = some params)
    (hname : Valid (McpTool.remote_name prefix_ call.name))
    (h : Handles T (agreeing W) library Q (mcp name (some c) prefix_) call) :
    ∃ fields, params = .object fields := by
  by_contra hobj
  obtain ⟨result, hresult, hok⟩ := (h .basic).exec ⟨default, fun _ => { transport := 0 }, 0⟩
  simp only [tool, McpTool] at hresult
  rw [McpTool.exec_invoke hparse, ← callParams] at hresult
  dsimp only at hresult
  rw [exec_callTool_agreeing hT hname (hT.parse _ _ hparse)] at hresult
  obtain rfl := Except.ok.inj hresult
  have hwell : ¬ WellFormed T call (mcp name (some c) prefix_ : EngineTool U) := by
    rintro ⟨fields, hfields⟩
    exact hobj ⟨fields, Option.some.inj (hparse.symm.trans hfields)⟩
  cases hok hwell

/-- Whatever the server does with an object, the tool returns. -/
theorem handles_object {fields : List (Str × Json)}
    (hparse : T.parse call.arguments = some (.object fields)) :
    Handles T P library Q (mcp name (some c) prefix_) call := by
  intro ctx
  have hwell : WellFormed T call (mcp name (some c) prefix_ : EngineTool U) := ⟨fields, hparse⟩
  simp only [tool, McpTool, McpTool.invoke, hparse]
  refine ToolM.yields_tryCatch ((Proc.returns_true _).mono ?_)
  rintro (e | result) - <;> exact fun hnwell => absurd hwell hnwell

theorem handles_unsent (hT : T.Exact) (hparse : T.parse call.arguments = some params)
    (hname : ¬ Valid (McpTool.remote_name prefix_ call.name)) :
    Handles T P library Q (mcp name (some c) prefix_) call := by
  intro ctx
  simp only [tool, McpTool, McpTool.invoke, hparse]
  refine ToolM.yields_tryCatch (Proc.Returns.mono (throws_callTool hT hname c).bind ?_)
  rintro _ ⟨e, rfl⟩ -
  rfl

end Sending

theorem handles_mcp_iff [Inhabited W] (hT : T.Exact) :
    (∀ P, Handles T P library Q (mcp name client prefix_) call)
      ↔ Sound T Q call (mcp name client prefix_) := by
  rcases client with _ | c
  · exact iff_of_true (fun P ctx => yields_failed) nofun
  rcases hparse : T.parse call.arguments with _ | params
  · refine iff_of_true (fun P ctx => ?_) (by simp [Sound, hparse])
    simp only [tool, McpTool, McpTool.invoke, hparse]
    exact yields_failed
  simp only [Sound, hparse, Option.some.injEq, forall_eq', Option.isSome_some, forall_const]
  constructor
  · exact fun h hname => object_of_handles hT hparse hname (h (agreeing W))
  · intro h P
    by_cases hname : Valid (McpTool.remote_name prefix_ call.name)
    · obtain ⟨fields, rfl⟩ := h hname
      exact handles_object hparse
    · exact handles_unsent hT hparse hname

/-- Whatever the servers do, a tool handles exactly the calls that are sound for it. -/
theorem handles_iff [Inhabited W] (hT : T.Exact) {t : EngineTool U} :
    (∀ P, Handles T P library Q t call) ↔ Sound T Q call t := by
  have hservers : Nonempty (ℕ → JsonRpcTransport W) := ⟨agreeing W⟩
  cases t with
  | read_file ctx_ => exact (forall_congr' fun _ => handles_read_file_iff).trans (forall_const _)
  | write_file => exact (forall_congr' fun _ => handles_write_file_iff).trans (forall_const _)
  | shell ctx_ => exact (forall_congr' fun _ => handles_shell_iff).trans (forall_const _)
  | mcp name client prefix_ => exact handles_mcp_iff hT

end EngineTool

/-! ## Batches -/

open ToolExecutor EngineTool

variable {W U : Type} {T : JsonText} {library : Exn → Str} {Q : Platform (McpWorld W) U}

/-- Every batch of these calls has exactly one record for each, with its ordinal, name and
arguments, and the counters grow by the records and the failed ones. -/
def Recorded (Q : Platform W U) (registry : ToolRegistry W U) (calls : List ToolCall) : Prop :=
  ∀ sched ctx ex w, ∃ records ex' w',
    execute sched Q registry ex calls ctx w = (.ok records, ex', w')
      ∧ (∃ order, order.Perm (List.range calls.length)
        ∧ List.Forall₂ (fun i r => r.IsOf (calls.getD i {})) order records)
      ∧ ex'.invocations = ex.invocations + .ofNat calls.length
      ∧ ex'.failures = ex.failures + .ofNat (records.countP fun r => !r.result.ok)

theorem recorded_of_returns {W : Type} {Q : Platform W U} {registry : ToolRegistry W U}
    {calls : List ToolCall} (hreg : ∀ call ∈ calls, registry.ReturnsOn call) :
    Recorded Q registry calls := by
  intro sched ctx ex w
  obtain ⟨records, ex', w', hexec, hof⟩ := execute_returns sched Q registry calls ctx hreg ex w
  obtain ⟨hlen, hcount⟩ := execute_eq_ok sched Q registry calls ctx hexec
  rw [foldl_count, hlen] at hcount
  subst hcount
  exact ⟨records, _, w', hexec, ⟨_, groupsOf_perm registry calls ex, hof⟩, rfl, rfl⟩

/-- Whatever the servers do, the calls of a batch are handled and recorded if and only if all of
them are sound. -/
theorem handled_iff [Inhabited W] (hT : T.Exact)
    {registry : (ℕ → JsonRpcTransport W) → ToolRegistry (McpWorld W) U}
    {kind : ToolCall → EngineTool U} {calls : List ToolCall}
    (hreg : ∀ P, ∀ call ∈ calls,
      (registry P).find call.name = some ((kind call).tool T P library Q)) :
    (∀ P, (∀ call ∈ calls, Handles T P library Q (kind call) call)
        ∧ Recorded Q (registry P) calls)
      ↔ ∀ call ∈ calls, Sound T Q call (kind call) := by
  constructor
  · exact fun h call hcall => (handles_iff hT).1 fun P => (h P).1 call hcall
  · intro h P
    have hhandles : ∀ call ∈ calls, Handles T P library Q (kind call) call :=
      fun call hcall => (handles_iff hT).2 (h call hcall) P
    refine ⟨hhandles, recorded_of_returns fun call hcall tool htool ctx => ?_⟩
    rw [hreg P call hcall] at htool
    obtain rfl := Option.some.inj htool
    exact Proc.Returns.mono (hhandles call hcall ctx) fun _ ⟨result, hr, _⟩ => ⟨result, hr⟩

/-! ## A path that is a number -/

/-- A library that reads the texts of a table. -/
def tableText (table : List (Str × Json)) : JsonText where
  parse := fun s => table.lookup s
  dump := fun j => if j.Unicode then .ok [] else .error (.type_error 316)

theorem exact_tableText {table : List (Str × Json)} (htable : ∀ entry ∈ table, entry.2.Unicode)
    (hempty : table.lookup (lit "\x7b\x7d") = some (.object [])) : (tableText table).Exact where
  dump := fun j => by
    unfold tableText
    dsimp only
    split_ifs with hj
    · exact iff_of_true ⟨_, rfl⟩ hj
    · exact iff_of_false nofun hj
  parse := fun s j hparse => by
    obtain ⟨before, after, rfl, -⟩ := List.lookup_eq_some_iff.1 hparse
    exact htable (s, j) (by simp)
  empty := hempty

def pathCall : ToolCall where
  name := "read_file"
  arguments := "\x7b\"path\":\"a\"\x7d"

/-- A write without content. -/
def bareWriteCall : ToolCall where
  ordinal := 1
  name := "write_file"
  arguments := "\x7b\"path\":\"a\"\x7d"

def numberCall : ToolCall where
  name := "read_file"
  arguments := "\x7b\"path\":1\x7d"

/-- The texts of these calls and the empty object. -/
def callTexts : JsonText := tableText
  [("\x7b\x7d", .object []), (pathCall.arguments, .object [("path", .string "a")]),
    (numberCall.arguments, .object [("path", .number_unsigned 1)])]

theorem exact_callTexts : callTexts.Exact := exact_tableText (by decide) rfl

instance : Inhabited StreamTransport := ⟨{}⟩

/-- The tools that are registered on the empty machine. -/
def kindOf (call : ToolCall) : EngineTool Empty :=
  if call.name = "write_file" then .write_file else .read_file (some .basic)

def emptyRegistry : ToolRegistry (McpWorld (ℕ → StreamTransport)) Empty :=
  register_builtin_tools callTexts emptyPlatform {} none

theorem handled_bare_write :
    Handles callTexts streamAt (fun _ => []) emptyPlatform .write_file bareWriteCall
      ∧ Recorded emptyPlatform emptyRegistry [pathCall, bareWriteCall] := by
  have hreg : ∀ P, ∀ call ∈ [pathCall, bareWriteCall],
      emptyRegistry.find call.name
        = some ((kindOf call).tool callTexts P (fun _ => []) emptyPlatform) := by
    intro P
    refine List.forall_mem_cons.2 ⟨?_, List.forall_mem_singleton.2 ?_⟩
    · exact find_read_file ..
    · exact find_write_file ..
  have hsound : ∀ call ∈ [pathCall, bareWriteCall],
      Sound callTexts emptyPlatform call (kindOf call) := by
    refine List.forall_mem_cons.2 ⟨?_, List.forall_mem_singleton.2 ?_⟩
    · rintro _ ⟨⟩
      exact ⟨"a", rfl, fun _ => .act fun _ => .ret ⟨[], rfl, fun _ => .act fun _ =>
        .ret ⟨false, rfl, trivial⟩⟩⟩
    · rintro path content - ⟨⟩
  obtain ⟨hhandles, hrecorded⟩ := (@handled_iff _ _ _ (fun _ => []) _ _ exact_callTexts
    (fun _ => emptyRegistry) kindOf _ hreg).2 hsound streamAt
  exact ⟨hhandles bareWriteCall (by simp), hrecorded⟩

/-- Where the path is no string the tool throws, and its whole batch is lost. -/
theorem number_path_throws :
    (∀ w, ((ReadFileTool callTexts emptyPlatform none).invoke numberCall .basic).exec w
        = (.error (.type_error 302), w))
      ∧ (execute .inOrder emptyPlatform emptyRegistry {} [pathCall, numberCall] (some .basic)
        builtinHosting.world).1 = .error (.type_error 302) := by
  refine ⟨fun w => rfl, ?_⟩
  decide +kernel

end Praxis
