import Praxis.Proofs.Splice

/-!
# Histories of file calls

A ledger of file calls tells what the files hold: the last write that succeeded says it. A file
call depends on no file but its own, and one that has succeeded, made again while its file holds
what it held then, returns the same and changes nothing.
-/

namespace Praxis

open Interleave (Proc Within Scheduler)

/-- The file call that a name and its arguments make. -/
def fileOp? (T : JsonText) (name arguments : Str) : Option FileOp :=
  (T.parse arguments).bind fun args =>
    match args.field? "path" with
    | some (.string path) =>
      if path.isEmpty then none
      else if name = lit "read_file" then some (.read path)
      else if name = lit "write_file" then
        match args.field? "content" with
        | some (.string content) => some (.write path content)
        | _ => none
      else none
    | _ => none

variable {T : JsonText} {call : ToolCall} {op : FileOp}

theorem isFileOp_iff : IsFileOp T call op ↔ fileOp? T call.name call.arguments = some op := by
  constructor
  · intro h
    unfold fileOp?
    cases h with
    | read hname hargs hpath hne => simp [hname, hargs, hpath, hne]
    | write hname hargs hpath hne hcontent =>
      have hlit : lit "write_file" ≠ lit "read_file" := by decide
      simp [hname, hargs, hpath, hne, hcontent, hlit]
  · intro h
    obtain ⟨args, hargs, h⟩ := Option.bind_eq_some_iff.1 h
    split at h
    · next path hpath =>
      split_ifs at h with hne hread hwrite
      · obtain rfl := Option.some.inj h
        exact .read hread hargs hpath (by simpa using hne)
      · split at h
        · next content hcontent =>
          obtain rfl := Option.some.inj h
          exact .write hwrite hargs hpath (by simpa using hne) hcontent
        · cases h
    · cases h

theorem IsFileOp.name (h : IsFileOp T call op) :
    call.name = lit "read_file" ∨ call.name = lit "write_file" := by
  cases h with
  | read hname => exact .inl hname
  | write hname => exact .inr hname

theorem IsFileOp.path_eq (h : IsFileOp T call op) :
    arg_string T call.arguments "path" = op.path := by
  cases h with
  | read _ hargs hpath _ => exact arg_string_of_field hargs hpath
  | write _ hargs hpath _ _ => exact arg_string_of_field hargs hpath

namespace FileOp

/-- What executing a file call returns and leaves; without a context no tool is reached. -/
def outcome (ctx : Option (Ctx Empty)) (name : Str) (op : FileOp) (fs : FlatFs) :
    ToolResult × FlatFs :=
  match ctx with
  | none => (.failed ("no tool context available for: " ++ name), fs)
  | some _ => op.apply fs

variable {ctx : Option (Ctx Empty)} {name : Str} {fs fs' : FlatFs}

/-- A file call changes its own file at most. -/
theorem outcome_frame {path : Str} (h : path ≠ op.path) :
    (op.outcome ctx name fs).2 path = fs path := by
  unfold outcome
  cases ctx with
  | none => rfl
  | some c =>
    cases op with
    | read p =>
      simp only [apply]
      cases fs p <;> rfl
    | write p content => exact Function.update_of_ne h _ _

/-- A file call depends on its own file at most. -/
theorem outcome_congr (h : fs op.path = fs' op.path) :
    (op.outcome ctx name fs).1 = (op.outcome ctx name fs').1
      ∧ (op.outcome ctx name fs).2 op.path = (op.outcome ctx name fs').2 op.path := by
  unfold outcome
  cases ctx with
  | none => exact ⟨rfl, h⟩
  | some c =>
    cases op with
    | read p =>
      have h : fs p = fs' p := h
      have hfs' : (apply (.read p) fs').2 = fs' := by
        simp only [apply]
        cases fs' p <;> rfl
      have hfs : (apply (.read p) fs).2 = fs := by
        simp only [apply]
        cases fs p <;> rfl
      dsimp only
      rw [hfs, hfs']
      refine ⟨?_, h⟩
      simp only [apply, h]
      cases fs' p <;> rfl
    | write p content => exact ⟨rfl, by simp [apply, path]⟩

/-- A file call that has succeeded, made again at once, returns the same and changes nothing. -/
theorem outcome_again (h : (op.outcome ctx name fs).1.ok = true) :
    op.outcome ctx name (op.outcome ctx name fs).2 = op.outcome ctx name fs := by
  unfold outcome at h ⊢
  cases ctx with
  | none => cases h
  | some c =>
    cases op with
    | read p =>
      simp only [apply] at h ⊢
      cases hp : fs p with
      | none =>
        rw [hp] at h
        cases h
      | some content => simp [hp]
    | write p content => simp [apply]

/-- A success carries no error message. -/
theorem outcome_message (h : (op.outcome ctx name fs).1.ok = true) :
    (op.outcome ctx name fs).1.error_message = [] := by
  unfold outcome at h ⊢
  cases ctx with
  | none => cases h
  | some c =>
    cases op with
    | read p =>
      simp only [apply] at h ⊢
      cases hp : fs p with
      | none =>
        rw [hp] at h
        cases h
      | some content => rfl
    | write p content => rfl

end FileOp

/-- The file system after a record: only a write that has succeeded changes it. -/
def settle (T : JsonText) (fs : FlatFs) (r : ToolExecutionRecord) : FlatFs :=
  match fileOp? T r.tool_name r.arguments with
  | some (.write path content) =>
    if r.result.ok then Function.update fs path (some content) else fs
  | _ => fs

def afterRecords (T : JsonText) (fs : FlatFs) (ledger : List ToolExecutionRecord) : FlatFs :=
  ledger.foldl (settle T) fs

@[simp] theorem afterRecords_append (fs : FlatFs) (l l' : List ToolExecutionRecord) :
    afterRecords T fs (l ++ l') = afterRecords T (afterRecords T fs l) l' := List.foldl_append

/-- The file of a record's call. -/
def recordPath (T : JsonText) (r : ToolExecutionRecord) : Str := arg_string T r.arguments "path"

/-- The second record's call repeats that of the first, which succeeded. -/
def Repeated (a b : ToolExecutionRecord) : Prop :=
  a.tool_name = b.tool_name ∧ a.arguments = b.arguments ∧ a.result.ok = true

instance (a b : ToolExecutionRecord) : Decidable (Repeated a b) :=
  inferInstanceAs (Decidable (_ ∧ _ ∧ _))

/-- Whenever a call repeats an earlier one that succeeded, its file holds what it held right after
that one. -/
def Stable (T : JsonText) (fs : FlatFs) (ledger : List ToolExecutionRecord) : Prop :=
  ∀ j < ledger.length, ∀ i < j, Repeated (ledger.getD i {}) (ledger.getD j {}) →
    afterRecords T fs (ledger.take j) (recordPath T (ledger.getD j {}))
      = afterRecords T fs (ledger.take (i + 1)) (recordPath T (ledger.getD j {}))

instance (T : JsonText) (fs : FlatFs) (ledger : List ToolExecutionRecord) :
    Decidable (Stable T fs ledger) := by unfold Stable; infer_instance

theorem Stable.of_prefix {fs : FlatFs} {l l' : List ToolExecutionRecord} (hl : l <+: l')
    (h : Stable T fs l') : Stable T fs l := by
  obtain ⟨m, rfl⟩ := hl
  intro j hj i hij
  have hget : ∀ k, k < l.length → (l ++ m).getD k {} = l.getD k {} := fun k hk => by
    simp [List.getElem?_append_left hk]
  have htake : ∀ k, k ≤ l.length → (l ++ m).take k = l.take k := fun k hk =>
    List.take_append_of_le_length hk
  have := h j (by rw [List.length_append]; omega) i hij
  rwa [hget i (by omega), hget j hj, htake j hj.le, htake (i + 1) (by omega)] at this

/-- A batch of file calls of pairwise distinct paths. -/
structure FileBatch (T : JsonText) (calls : List ToolCall) : Prop where
  files : ∀ call ∈ calls, ∃ op, IsFileOp T call op
  distinct : (calls.map fun call => arg_string T call.arguments "path").Nodup

theorem fileBatch_iff {calls : List ToolCall} : FileBatch T calls ↔
    (∀ call ∈ calls, (fileOp? T call.name call.arguments).isSome)
      ∧ (calls.map fun call => arg_string T call.arguments "path").Nodup := by
  simp only [Option.isSome_iff_exists, ← isFileOp_iff]
  exact ⟨fun h => ⟨h.files, h.distinct⟩, fun h => ⟨h.1, h.2⟩⟩

instance (T : JsonText) (calls : List ToolCall) : Decidable (FileBatch T calls) :=
  decidable_of_iff _ fileBatch_iff.symm

theorem FileBatch.nil : FileBatch T [] := ⟨fun _ h => absurd h List.not_mem_nil, List.nodup_nil⟩

theorem FileBatch.sublist {calls calls' : List ToolCall} (h : FileBatch T calls)
    (hsub : calls'.Sublist calls) : FileBatch T calls' where
  files := fun call hcall => h.files call (hsub.subset hcall)
  distinct := h.distinct.sublist (hsub.map _)

theorem FileBatch.getD {calls : List ToolCall} (h : FileBatch T calls) {i : ℕ}
    (hi : i < calls.length) : ∃ op, IsFileOp T (calls.getD i {}) op :=
  h.files (calls.getD i {}) (by simp [hi])

/-- Two calls of the batch with one path are the same call. -/
theorem FileBatch.path_inj {calls : List ToolCall} (h : FileBatch T calls) {i j : ℕ}
    (hi : i < calls.length) (hj : j < calls.length)
    (hpath : arg_string T (calls.getD i {}).arguments "path"
      = arg_string T (calls.getD j {}).arguments "path") : i = j := by
  refine (List.getElem?_inj (by simpa using hi) h.distinct).1 ?_
  simpa [hi, hj] using hpath

section Batch

variable (T) (ctx : Option (Ctx Empty))

/-- What a call comes to as a file call. -/
def fileOutcome (call : ToolCall) (fs : FlatFs) : ToolResult × FlatFs :=
  match fileOp? T call.name call.arguments with
  | some op => op.outcome ctx call.name fs
  | none => ({}, fs)

/-- The record of a file call executed on `fs`. -/
def fileRecord (fs : FlatFs) (call : ToolCall) : ToolExecutionRecord :=
  let result := (fileOutcome T ctx call fs).1
  { call.toRecord result with observed_resources := result.observed_resources }

variable {T ctx}

theorem IsFileOp.outcome_eq (h : IsFileOp T call op) (fs : FlatFs) :
    fileOutcome T ctx call fs = op.outcome ctx call.name fs := by
  unfold fileOutcome
  rw [isFileOp_iff.1 h]

/-- A file call changes the files as its record says. -/
theorem settle_fileRecord (h : IsFileOp T call op) (fs fs' : FlatFs) :
    settle T fs' (fileRecord T ctx fs call) = (fileOutcome T ctx call fs').2 := by
  have hop : fileOp? T (fileRecord T ctx fs call).tool_name (fileRecord T ctx fs call).arguments
      = some op := isFileOp_iff.1 h
  have hresult : (fileRecord T ctx fs call).result = (op.outcome ctx call.name fs).1 :=
    congrArg Prod.fst (h.outcome_eq fs)
  unfold settle
  rw [hop, hresult, h.outcome_eq]
  unfold FileOp.outcome
  cases op with
  | read p =>
    cases ctx with
    | none => rfl
    | some c =>
      simp only [FileOp.apply]
      cases fs' p <;> rfl
  | write p content => cases ctx <;> rfl

/-- After the calls, the file of each holds what it leaves there, and the others are as before. -/
structure Wrote (T : JsonText) (ctx : Option (Ctx Empty)) (calls : List ToolCall)
    (fs fs' : FlatFs) : Prop where
  files : ∀ call ∈ calls, fs' (arg_string T call.arguments "path")
    = (fileOutcome T ctx call fs).2 (arg_string T call.arguments "path")
  others : ∀ path, (∀ call ∈ calls, arg_string T call.arguments "path" ≠ path) →
    fs' path = fs path

theorem Wrote.unique {calls : List ToolCall} {fs fs₁ fs₂ : FlatFs}
    (h₁ : Wrote T ctx calls fs fs₁) (h₂ : Wrote T ctx calls fs fs₂) : fs₁ = fs₂ := by
  funext path
  by_cases hpath : ∃ call ∈ calls, arg_string T call.arguments "path" = path
  · obtain ⟨call, hcall, rfl⟩ := hpath
    rw [h₁.files call hcall, h₂.files call hcall]
  · push Not at hpath
    rw [h₁.others path hpath, h₂.others path hpath]

/-- What the records of a batch say that it has written. -/
theorem FileBatch.wrote {fs : FlatFs} :
    ∀ {calls : List ToolCall}, FileBatch T calls → ∀ fs' : FlatFs,
      (∀ call ∈ calls, fs' (arg_string T call.arguments "path")
        = fs (arg_string T call.arguments "path")) →
      (∀ call ∈ calls, afterRecords T fs' (calls.map (fileRecord T ctx fs))
          (arg_string T call.arguments "path")
        = (fileOutcome T ctx call fs).2 (arg_string T call.arguments "path"))
      ∧ ∀ path, (∀ call ∈ calls, arg_string T call.arguments "path" ≠ path) →
        afterRecords T fs' (calls.map (fileRecord T ctx fs)) path = fs' path
  | [], _, fs', _ => ⟨by simp, fun _ _ => rfl⟩
  | call :: calls, h, fs', hfs' => by
    obtain ⟨op, hop⟩ := h.files call List.mem_cons_self
    obtain ⟨hnot, -⟩ := List.nodup_cons.1 h.distinct
    have hne : ∀ c ∈ calls, arg_string T c.arguments "path" ≠ op.path := fun c hc he =>
      hnot (List.mem_map.2 ⟨c, hc, he.trans hop.path_eq.symm⟩)
    have hafter : afterRecords T fs' ((call :: calls).map (fileRecord T ctx fs))
        = afterRecords T (op.outcome ctx call.name fs').2 (calls.map (fileRecord T ctx fs)) := by
      rw [List.map_cons, afterRecords, List.foldl_cons, settle_fileRecord hop, hop.outcome_eq]
      rfl
    have hrest : ∀ c ∈ calls, (op.outcome ctx call.name fs').2 (arg_string T c.arguments "path")
        = fs (arg_string T c.arguments "path") := fun c hc => by
      rw [FileOp.outcome_frame (hne c hc)]
      exact hfs' c (List.mem_cons_of_mem _ hc)
    obtain ⟨hfiles, hothers⟩ :=
      FileBatch.wrote (h.sublist (List.sublist_cons_self call calls)) _ hrest
    rw [hafter]
    refine ⟨fun c hc => ?_, fun path hpath => ?_⟩
    · rcases List.mem_cons.1 hc with rfl | hc
      · rw [hop.path_eq, hothers op.path hne, hop.outcome_eq]
        refine (FileOp.outcome_congr ?_).2
        rw [← hop.path_eq]
        exact hfs' c List.mem_cons_self
      · exact hfiles c hc
    · rw [hothers path fun c hc => hpath c (List.mem_cons_of_mem _ hc)]
      refine FileOp.outcome_frame fun he => hpath call List.mem_cons_self ?_
      rw [hop.path_eq, he]

theorem FileBatch.wrote_afterRecords {calls : List ToolCall} (h : FileBatch T calls)
    (fs : FlatFs) : Wrote T ctx calls fs (afterRecords T fs (calls.map (fileRecord T ctx fs))) :=
  have ⟨hfiles, hothers⟩ := h.wrote fs fun _ _ => rfl
  ⟨hfiles, hothers⟩

/-- The record's call, made on `fs`, returns what it did and changes nothing. -/
def Settled (T : JsonText) (ctx : Option (Ctx Empty)) (r : ToolExecutionRecord) (fs : FlatFs) :
    Prop :=
  ∀ op, fileOp? T r.tool_name r.arguments = some op →
    (op.outcome ctx r.tool_name fs).1.ok = true
      ∧ (op.outcome ctx r.tool_name fs).1.output = r.result.output
      ∧ (op.outcome ctx r.tool_name fs).2 = fs

theorem Settled.congr {r : ToolExecutionRecord} {fs fs' : FlatFs}
    (hfs : fs (recordPath T r) = fs' (recordPath T r)) (h : Settled T ctx r fs) :
    Settled T ctx r fs' := by
  intro op hop
  let call : ToolCall := { name := r.tool_name, arguments := r.arguments }
  have hfileOp : IsFileOp T call op := isFileOp_iff.2 hop
  have hpath : recordPath T r = op.path := hfileOp.path_eq
  rw [hpath] at hfs
  obtain ⟨hok, houtput, hkeep⟩ := h op hop
  obtain ⟨hresult, hfile⟩ : (op.outcome ctx r.tool_name fs).1 = (op.outcome ctx r.tool_name fs').1
      ∧ (op.outcome ctx r.tool_name fs).2 op.path = (op.outcome ctx r.tool_name fs').2 op.path :=
    FileOp.outcome_congr hfs
  rw [← hresult]
  refine ⟨hok, houtput, funext fun path => ?_⟩
  by_cases he : path = op.path
  · rw [he, ← hfile, hkeep, hfs]
  · exact FileOp.outcome_frame he

/-- Each success of the ledger was settled right after it. -/
def Sound (T : JsonText) (ctx : Option (Ctx Empty)) (fs : FlatFs)
    (ledger : List ToolExecutionRecord) : Prop :=
  ∀ k < ledger.length, (ledger.getD k {}).result.ok = true →
    Settled T ctx (ledger.getD k {}) (afterRecords T fs (ledger.take (k + 1)))

theorem FileBatch.take {calls : List ToolCall} (h : FileBatch T calls) (n : ℕ) :
    FileBatch T (calls.take n) := h.sublist (List.take_sublist n calls)

theorem fileRecord_settled (h : IsFileOp T call op) {fs : FlatFs}
    (hok : (fileRecord T ctx fs call).result.ok = true) :
    Settled T ctx (fileRecord T ctx fs call) (fileOutcome T ctx call fs).2 := by
  intro op' hop'
  obtain rfl : op = op' := Option.some.inj ((isFileOp_iff.1 h).symm.trans hop')
  have hresult : (fileRecord T ctx fs call).result = (op.outcome ctx call.name fs).1 :=
    congrArg Prod.fst (h.outcome_eq fs)
  rw [hresult] at hok
  have hagain : op.outcome ctx (fileRecord T ctx fs call).tool_name
      (op.outcome ctx call.name fs).2 = op.outcome ctx call.name fs := FileOp.outcome_again hok
  rw [h.outcome_eq, hagain, hresult]
  exact ⟨hok, rfl, rfl⟩

theorem Sound.append {fs : FlatFs} {ledger : List ToolExecutionRecord} {calls : List ToolCall}
    (hs : Sound T ctx fs ledger) (h : FileBatch T calls) :
    Sound T ctx fs (ledger ++ calls.map (fileRecord T ctx (afterRecords T fs ledger))) := by
  intro k hk hok
  rcases lt_or_ge k ledger.length with hlt | hge
  · have hget : (ledger ++ calls.map (fileRecord T ctx (afterRecords T fs ledger))).getD k {}
        = ledger.getD k {} := by simp [List.getElem?_append_left hlt]
    rw [hget] at hok ⊢
    rw [List.take_append_of_le_length hlt]
    exact hs k hlt hok
  · obtain ⟨n, rfl⟩ := Nat.exists_eq_add_of_le hge
    have hn : n < calls.length := by simpa using hk
    have hget : (ledger ++ calls.map (fileRecord T ctx (afterRecords T fs ledger))).getD
        (ledger.length + n) {} = fileRecord T ctx (afterRecords T fs ledger) calls[n] := by
      simp [hn]
    have htake : (ledger ++ calls.map (fileRecord T ctx (afterRecords T fs ledger))).take
        (ledger.length + n + 1)
        = ledger ++ (calls.take (n + 1)).map (fileRecord T ctx (afterRecords T fs ledger)) := by
      rw [Nat.add_assoc, List.take_length_add_append, List.map_take]
    rw [hget] at hok ⊢
    rw [htake, afterRecords_append]
    obtain ⟨op, hop⟩ := h.files calls[n] (List.getElem_mem hn)
    refine Settled.congr ?_ (fileRecord_settled hop hok)
    refine ((h.take (n + 1)).wrote_afterRecords _).files calls[n] ?_ |>.symm
    exact List.mem_take_iff_getElem.2 ⟨n, by omega, rfl⟩

/-- In a stable ledger a call that repeats a success is settled when the batch with it comes. -/
theorem Stable.settled {fs : FlatFs} {ledger : List ToolExecutionRecord} {calls : List ToolCall}
    (hs : Sound T ctx fs ledger) (h : FileBatch T calls)
    (hstable : Stable T fs
      (ledger ++ calls.map (fileRecord T ctx (afterRecords T fs ledger))))
    (hcall : call ∈ calls) {a : ToolExecutionRecord} (ha : a ∈ ledger)
    (hname : a.tool_name = call.name) (hargs : a.arguments = call.arguments)
    (hok : a.result.ok = true) : Settled T ctx a (afterRecords T fs ledger) := by
  obtain ⟨i, hi, rfl⟩ := List.mem_iff_getElem.1 ha
  obtain ⟨n, hn, rfl⟩ := List.mem_iff_getElem.1 hcall
  set records := calls.map (fileRecord T ctx (afterRecords T fs ledger)) with hrecords
  have hgeti : (ledger ++ records).getD i {} = ledger[i] := by
    simp [List.getElem?_append_left hi, hi]
  have hgetn : (ledger ++ records).getD (ledger.length + n) {}
      = fileRecord T ctx (afterRecords T fs ledger) calls[n] := by simp [hrecords, hn]
  have hfile := hstable (ledger.length + n) (by simp [hrecords, hn]) i (by omega)
    (by rw [hgeti, hgetn]; exact ⟨hname, hargs, hok⟩)
  rw [hgetn, List.take_length_add_append, List.take_append_of_le_length hi, afterRecords_append]
    at hfile
  have hsound := hs i hi (by simpa [hi] using hok)
  have hgetd : ledger.getD i {} = ledger[i] := by simp [hi]
  rw [hgetd] at hsound
  refine hsound.congr ?_
  have hpath : recordPath T ledger[i] = recordPath T (fileRecord T ctx (afterRecords T fs ledger)
      calls[n]) := congrArg (fun s => arg_string T s "path") hargs
  rw [hpath, ← hfile, hrecords, ← List.map_take]
  -- the calls before it in the batch are of other files
  refine (((h.take n).wrote_afterRecords _).others _ fun c hc he => ?_)
  obtain ⟨m, hm, rfl⟩ := List.mem_take_iff_getElem.1 hc
  have hlt : m < calls.length := by omega
  have hpaths : arg_string T calls[m].arguments "path"
      = arg_string T calls[n].arguments "path" := he
  have hmn : m = n := h.path_inj hlt hn (by simpa [hlt, hn] using hpaths)
  omega

/-! ## Executing a batch -/

section Execute

variable {below : FlatFs → Str → List Str} {registry : ToolRegistry FlatFs Empty}
  {tools_ctx : Option (Ctx Empty)}

/-- A file call executed alone gives its record. -/
theorem IsFileOp.exec_invoke_one (h : IsFileOp T call op) (hctx : tools_ctx.getD .basic = .basic)
    (fs : FlatFs) :
    ToolM.exec (Praxis.invoke_one (flatRegistry T below registry tools_ctx) call ctx) fs
      = (.ok (fileRecord T ctx fs call), (fileOutcome T ctx call fs).2) := by
  unfold fileRecord
  rw [h.outcome_eq]
  obtain ⟨tool, hfind, -⟩ := h.find (flatPlatform below) registry tools_ctx
  cases ctx with
  | none =>
    unfold Praxis.invoke_one invokePath
    rw [hfind]
    rfl
  | some c =>
    rw [h.invoke_one, hctx]
    simp only [ToolM.exec_bind, FileOp.exec_invoke]
    rfl

/-- Calls of different files do not conflict, so they run in one group or in groups in order. -/
theorem FileBatch.in_order {calls : List ToolCall} (h : FileBatch T calls) (ex : ToolExecutor) :
    (ToolExecutor.groupsOf (flatRegistry T below registry tools_ctx) calls ex).flatten
      = List.range calls.length := by
  have hnone : ∀ i j,
      ¬ (callGraph (flatRegistry T below registry tools_ctx) calls).Conflict i j := by
    intro i j hij
    obtain ⟨hne, hi, hj, hshare⟩ := (callGraph_conflict_iff _ calls).1 hij
    obtain ⟨opi, hopi⟩ := h.getD hi
    obtain ⟨opj, hopj⟩ := h.getD hj
    rw [hopi.resourcesOf, hopj.resourcesOf, FileOp.shares_iff, ← hopi.path_eq, ← hopj.path_eq]
      at hshare
    exact hne (h.path_inj hi hj hshare)
  have hdepth : ∀ j, FirstFit.depth
      (callGraph (flatRegistry T below registry tools_ctx) calls).Conflict j = 0 := by
    intro j
    rw [FirstFit.depth]
    simp [hnone]
  refine (Orchestrator.groupsOf_in_order_iff _ calls ex).2 (.inr ⟨fun j _ i _ => ?_, ?_⟩)
  · rw [hdepth, hdepth]
  · intro j hj k hk
    rw [hdepth] at hk
    exact absurd hk (Nat.not_lt_zero k)

theorem FileBatch.within {calls : List ToolCall} (h : FileBatch T calls) {i : ℕ}
    (hi : i < calls.length) :
    Within {arg_string T (calls.getD i {}).arguments "path"}
      (invoke_one (flatRegistry T below registry tools_ctx) (calls.getD i {}) ctx) := by
  obtain ⟨op, hop⟩ := h.getD hi
  rw [hop.path_eq]
  exact hop.within below registry tools_ctx ctx

theorem FileBatch.apart {calls : List ToolCall} (h : FileBatch T calls) {i j : ℕ}
    (hi : i < calls.length) (hj : j < calls.length) (hij : i ≠ j) :
    ∀ l ∈ ({arg_string T (calls.getD i {}).arguments "path"} : Set Str),
      l ∉ ({arg_string T (calls.getD j {}).arguments "path"} : Set Str) := fun _ hl hl' =>
  hij (h.path_inj hi hj ((Set.mem_singleton_iff.1 hl).symm.trans (Set.mem_singleton_iff.1 hl')))

variable (below registry) in
/-- Executed one after the other, each call returns its record and has written its file. -/
theorem FileBatch.runOrder {calls : List ToolCall} (h : FileBatch T calls)
    (hctx : tools_ctx.getD .basic = .basic) (fs : FlatFs) :
    let run := Interleave.runOrder
      (fun i => invoke_one (flatRegistry T below registry tools_ctx) (calls.getD i {}) ctx)
      (List.range calls.length) fs
    run.1.map Prod.snd = (calls.map (fileRecord T ctx fs)).map .ok
      ∧ Wrote T ctx calls fs run.2 := by
  intro run
  obtain ⟨hresults, hfiles, hothers⟩ := Interleave.runOrder_apart fs
    (fun i hi => h.within (List.mem_range.1 hi))
    ((List.Pairwise.and_mem.1 List.nodup_range).imp fun {i j} hij =>
      h.apart (List.mem_range.1 hij.1) (List.mem_range.1 hij.2.1) hij.2.2)
  have hexec : ∀ i < calls.length, Proc.run
      (invoke_one (flatRegistry T below registry tools_ctx) (calls.getD i {}) ctx) fs
      = (.ok (fileRecord T ctx fs (calls.getD i {})),
        (fileOutcome T ctx (calls.getD i {}) fs).2) := fun i hi => by
    obtain ⟨op, hop⟩ := h.getD hi
    exact hop.exec_invoke_one hctx fs
  refine ⟨?_, fun call hcall => ?_, fun path hpath => hothers path fun i hi hl => ?_⟩
  · rw [hresults]
    refine List.ext_getElem (by simp) fun i hi hi' => ?_
    have hi : i < calls.length := by simpa using hi
    have hrecord := congrArg Prod.fst (hexec i hi)
    simpa [hi] using hrecord
  · obtain ⟨i, hi, rfl⟩ := List.mem_iff_getElem.1 hcall
    have hget : calls.getD i {} = calls[i] := by simp [hi]
    rw [← hget, hfiles i (List.mem_range.2 hi) _ rfl, hexec i hi]
  · have hi := List.mem_range.1 hi
    exact hpath (calls.getD i {}) (by simp [hi]) (Set.mem_singleton_iff.1 hl).symm

/-- However the workers of a batch interleave, it comes to the same. -/
theorem FileBatch.runGroups {calls : List ToolCall} (h : FileBatch T calls)
    (hctx : tools_ctx.getD .basic = .basic)
    (sched : Scheduler ℕ FlatFs (Except Exn ToolExecutionRecord)) (ex : ToolExecutor)
    (fs : FlatFs) :
    let reg := flatRegistry T below registry tools_ctx
    let run := sched.runGroups (launch (flatPlatform below) reg calls ctx)
      (ToolExecutor.groupsOf reg calls ex) fs
    run.1 = (calls.map (fileRecord T ctx fs)).map .ok ∧ Wrote T ctx calls fs run.2 := by
  intro reg run
  have hflat : (ToolExecutor.groupsOf reg calls ex).flatten = List.range calls.length :=
    h.in_order ex
  have hgroup : ∀ g ∈ ToolExecutor.groupsOf reg calls ex, ∀ i ∈ g, i < calls.length :=
    fun g hg i hi => List.mem_range.1 (hflat ▸ List.mem_flatten.2 ⟨g, hg, hi⟩)
  have hrun := sched.runGroups_eq_runOrder (ToolExecutor.groupsOf reg calls ex) fs
    (hflat ▸ List.nodup_range) (fun i _ w => launch_flat below ctx calls reg i w)
    (fun i hi => h.within (List.mem_range.1 (hflat ▸ hi)))
    fun g hg i hi j hj => h.apart (hgroup g hg i hi) (hgroup g hg j hj)
  have hlen := sched.runGroups_length (launch (flatPlatform below) reg calls ctx)
    (ToolExecutor.groupsOf reg calls ex) fs
  rw [hflat] at hrun hlen
  obtain ⟨hresults, hwrote⟩ := h.runOrder below registry hctx fs
  rw [hrun] at hresults hwrote
  rw [List.map_snd_zip hlen.le] at hresults
  exact ⟨hresults, hwrote⟩

/-- A batch of calls of different files, executed in either mode and however its workers
interleave. -/
theorem FileBatch.execute {calls : List ToolCall} (h : FileBatch T calls)
    (hctx : tools_ctx.getD .basic = .basic)
    (sched : Scheduler ℕ FlatFs (Except Exn ToolExecutionRecord)) (ex : ToolExecutor)
    (fs : FlatFs) :
    ∃ ex', ToolExecutor.execute sched (flatPlatform below) (flatRegistry T below registry tools_ctx)
        ex calls ctx fs
      = (.ok (calls.map (fileRecord T ctx fs)), ex',
        afterRecords T fs (calls.map (fileRecord T ctx fs))) := by
  by_cases hne : calls = []
  · subst hne
    exact ⟨ex, rfl⟩
  · obtain ⟨hrecords, hwrote⟩ := h.runGroups hctx sched ex fs
    have hexec :=
      ToolExecutor.execute_ok sched (flatPlatform below) _ calls ctx ex fs _ hrecords hne
    rw [hwrote.unique (h.wrote_afterRecords fs)] at hexec
    exact ⟨_, hexec⟩

end Execute

end Batch

end Praxis
