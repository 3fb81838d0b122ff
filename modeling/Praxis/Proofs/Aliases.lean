import Praxis.Proofs.Serial

/-!
# One file under two names

The keys that the file tools claim are made of the paths as they are written, so two spellings of
one path are keys of their own.
-/

namespace Praxis

/-- The names kept so far, the last first, and one more: `..` takes back the name before it. -/
def enter (absolute : Bool) (kept : List Str) (name : Str) : List Str :=
  if name = ".." then
    match kept with
    | [] => if absolute then [] else [name]
    | last :: rest => if last = ".." then name :: kept else rest
  else name :: kept

/-- `std::filesystem::path::lexically_normal`: without `.`, without `..` after a name, and without
repeated slashes. What ends in one of these names a directory, and keeps one slash at the end. -/
def lexically_normal (path : Str) : Str :=
  let names := path.splitOn 47
  let absolute := path.head? == some 47
  let kept := ((names.filter fun name => name != [] && name != ".").foldl (enter absolute) [])
  let directory := names.getLast? == some [] || names.getLast? == some "."
    || names.getLast? == some ".."
  let normal := (if absolute then lit "/" else []) ++ [47].intercalate kept.reverse
    ++ (if directory && !kept.isEmpty && kept.head? != some ".." then lit "/" else [])
  if path.isEmpty then [] else if normal.isEmpty then "." else normal

example : lexically_normal "../a/./b//../c/" = lit "../a/c/" := by decide +kernel

variable {T : JsonText} {call : ToolCall} {p q : Str}

/-- The arguments of the call have a string for its path. -/
def Names (T : JsonText) (call : ToolCall) (path : Str) : Prop :=
  ∃ args, T.parse call.arguments = some args ∧ args.field? "path" = some (.string path)

/-- A `write_file` that passes its argument checks. -/
def Writes (T : JsonText) (call : ToolCall) (path : Str) : Prop :=
  call.name = "write_file"
    ∧ ∃ args content, T.parse call.arguments = some args
      ∧ args.field? "path" = some (.string path)
      ∧ args.field? "content" = some (.string content)

theorem Writes.names (h : Writes T call p) : Names T call p := by
  obtain ⟨-, args, content, hargs, hpath, -⟩ := h
  exact ⟨args, hargs, hpath⟩

/-! ## Shared keys -/

/-- What a key says of its path. -/
def pathKey (path : Str) : Str := if path.isEmpty then "*" else path

/-- What a call of a file tool on the path claims. -/
def fileKeys (writes : Bool) (path : Str) : List Str :=
  if !writes then ["file:read:" ++ pathKey path]
  else if path.isEmpty then ["file:write:" ++ pathKey path]
  else ["file:read:" ++ pathKey path, "file:write:" ++ pathKey path]

theorem read_ne_write (p q : Str) : lit "file:read:" ++ p ≠ lit "file:write:" ++ q := by
  intro h
  have := congrArg (fun s : Str => s[5]?) h
  simp [lit] at this

/-- A write shares a key with a call whose path reads the same in a key, but an empty path is
claimed for reading by reads alone. -/
theorem shares_iff (writes : Bool) :
    (∃ key ∈ fileKeys true p, key ∈ fileKeys writes q)
      ↔ pathKey p = pathKey q ∧ (writes = true ∨ p ≠ []) := by
  have hinj : ∀ pre p q : Str, pre ++ p = pre ++ q ↔ p = q := fun pre p q =>
    List.append_right_inj pre
  unfold fileKeys
  cases writes with
  | false => cases p <;> simp [hinj, read_ne_write, (read_ne_write _ _).symm, eq_comm]
  | true =>
    cases p <;> cases q <;>
      simp [hinj, read_ne_write, (read_ne_write _ _).symm, eq_comm]

/-- Only the wildcard and the empty path read the same, and they are not one file. -/
theorem pathKey_inj (h : lexically_normal p = lexically_normal q) :
    pathKey p = pathKey q ↔ p = q := by
  have hwild : lexically_normal [] ≠ lexically_normal "*" := by decide +kernel
  refine ⟨fun hkey => ?_, fun h => h ▸ rfl⟩
  unfold pathKey at hkey
  cases p with
  | nil =>
    cases q with
    | nil => rfl
    | cons b q =>
      have hq : lit "*" = b :: q := hkey
      exact absurd h (hq ▸ hwild)
  | cons a p =>
    cases q with
    | nil =>
      have hp : a :: p = lit "*" := hkey
      exact absurd h.symm (hp ▸ hwild)
    | cons b q => exact hkey

section Batch

variable {W U : Type} (P : Platform W U) (registry : ToolRegistry W U) (ctx : Option (Ctx U))

theorem resourcesOf_names (h : Names T call p)
    (hname : call.name = "read_file" ∨ call.name = "write_file") :
    resourcesOf (register_builtin_tools T P registry ctx) call
      = fileKeys (call.name == "write_file") p := by
  obtain ⟨args, hargs, hpath⟩ := h
  have hstring := arg_string_of_field hargs hpath
  unfold resourcesOf fileKeys pathKey
  rcases hname with hname | hname
  · rw [hname, find_read_file]
    simp only [ReadFileTool, ReadFileTool.resources_for, hstring]
    rw [show (lit "read_file" == lit "write_file") = false from by decide]
    cases p <;> simp [lit]
  · rw [hname, find_write_file]
    simp only [WriteFileTool, WriteFileTool.resources_for, hstring]
    cases p <;> simp [lit]

/-- Two file calls whose paths are one file after normalisation, one of them a write, conflict and
are never in one group exactly if their paths are the same string, and not the empty one unless
both are writes. -/
theorem aliases_conflict_iff (T : JsonText) (calls : List ToolCall) {i j : ℕ} (hij : i ≠ j)
    (hi : i < calls.length) (hj : j < calls.length)
    (hname : (calls.getD j {}).name = "read_file" ∨ (calls.getD j {}).name = "write_file")
    (hwrites : Writes T (calls.getD i {}) p) (hnames : Names T (calls.getD j {}) q)
    (hsame : lexically_normal p = lexically_normal q) :
    let G := callGraph (register_builtin_tools T P registry ctx) calls
    (G.Conflict i j ∧ G.Conflict j i ∧ ∀ g ∈ G.schedule, ¬ (i ∈ g ∧ j ∈ g))
      ↔ p = q ∧ ((calls.getD j {}).name = "write_file" ∨ p ≠ []) := by
  intro G
  have hconflict : G.Conflict i j
      ↔ p = q ∧ ((calls.getD j {}).name = "write_file" ∨ p ≠ []) := by
    rw [callGraph_conflict_iff, resourcesOf_names P registry ctx hwrites.names (.inr hwrites.1),
      resourcesOf_names P registry ctx hnames hname, hwrites.1, beq_self_eq_true, shares_iff,
      pathKey_inj hsame, beq_iff_eq]
    exact ⟨fun h => h.2.2.2, fun h => ⟨hij, hi, hj, h⟩⟩
  rw [← hconflict]
  refine ⟨fun h => h.1, fun h => ⟨h, DependencyGraph.conflict_symm h, fun g hg hmem => ?_⟩⟩
  exact DependencyGraph.schedule_no_conflict hg hmem.1 hmem.2 h

end Batch

/-! ## Two spellings -/

def spelledText : JsonText :=
  .ofTable
    [("\x7b\"content\":\"1\",\"path\":\"a\"\x7d",
        .ofFields [("content", .string "1"), ("path", .string "a")]),
      ("\x7b\"path\":\"a\"\x7d", .ofFields [("path", .string "a")]),
      ("\x7b\"path\":\"./a\"\x7d", .ofFields [("path", .string "./a")])]

/-- A write of the file `a`, and a read of it under the given spelling. -/
def spelledCalls (path : Str) : List ToolCall :=
  [{ name := "write_file", arguments := "\x7b\"content\":\"1\",\"path\":\"a\"\x7d" },
    { name := "read_file", arguments := "\x7b\"path\":\"" ++ path ++ "\"\x7d", ordinal := 1 }]

def spelledGraph (path : Str) : DependencyGraph :=
  callGraph (register_builtin_tools spelledText (flatPlatform fun _ _ => []) {} none)
    (spelledCalls path)

theorem spelled_parse : spelledText.parse "\x7b\"content\":\"1\",\"path\":\"a\"\x7d"
    = some (.ofFields [("content", .string "1"), ("path", .string "a")]) := by decide

theorem spelled_writes (path : Str) : Writes spelledText ((spelledCalls path).getD 0 {}) "a" :=
  ⟨rfl, _, "1", spelled_parse, by decide, by decide⟩

theorem aliases_conflict_spelled :
    (spelledGraph "a").Conflict 0 1 ∧ (spelledGraph "a").Conflict 1 0
      ∧ ∀ g ∈ (spelledGraph "a").schedule, ¬ (0 ∈ g ∧ 1 ∈ g) :=
  (aliases_conflict_iff (flatPlatform fun _ _ => []) {} none spelledText (spelledCalls "a")
    (by decide) (by decide) (by decide) (.inl rfl) (spelled_writes "a")
    ⟨.ofFields [("path", .string "a")], by decide, by decide⟩ rfl).2 ⟨rfl, .inr (by decide)⟩

/-- A read of `./a` runs beside the write of `a`. -/
theorem alias_races :
    Writes spelledText ((spelledCalls "./a").getD 0 {}) "a"
      ∧ Names spelledText ((spelledCalls "./a").getD 1 {}) "./a"
      ∧ lexically_normal "a" = lexically_normal "./a"
      ∧ ¬ (spelledGraph "./a").Conflict 0 1
      ∧ (spelledGraph "./a").schedule = [[0, 1]] :=
  ⟨spelled_writes "./a", ⟨.ofFields [("path", .string "./a")], by decide, by decide⟩,
    by decide +kernel, by decide, by decide⟩

end Praxis
