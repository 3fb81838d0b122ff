import Praxis.ToolExecutor

/-!
# The built-in tools
-/

namespace Praxis

open Interleave (Proc)

variable {W U : Type} (T : JsonText) (P : Platform W U)

/-- One string field of a call's arguments, empty where there is none. -/
def arg_string (arguments key : Str) : Str :=
  match T.parse arguments with
  | none => []
  | some args =>
    match args.field? key with
    | some (.string s) => s
    | _ => []

/-- A failed `ToolResult`. -/
def ToolResult.failed (message : Str) : ToolResult := { ok := false, error_message := message }

def ReadFileTool.resources_for (call : ToolCall) : List Str :=
  let path := arg_string T call.arguments "path"
  if path.isEmpty then ["file:read:*"] else ["file:read:" ++ path]

def ReadFileTool.invoke (ctx_ : Option (Ctx U)) (call : ToolCall) (ctx : Ctx U) :
    ToolM W ToolResult :=
  let active := ctx_.getD ctx
  match (T.parse call.arguments).bind fun args => args.field? "path" with
  | none => pure (.failed "missing path")
  | some field => do
    let path ← ExceptT.mk (pure field.getString)
    let content ← active.read_file P path
    let found ← if content.isEmpty then active.file_exists P path else pure true
    if found then
      pure
        { output := .ofFields [("path", .string path), ("content", .string content)]
          observed_resources := [path] }
    else pure (.failed ("file not found: " ++ path))

def ReadFileTool (ctx_ : Option (Ctx U)) : Tool W U where
  descriptor := { name := "read_file", declared_resources := ["file:read"] }
  resources_for := ReadFileTool.resources_for T
  invoke := ReadFileTool.invoke T P ctx_

/-- A write also claims the read of its path. -/
def WriteFileTool.resources_for (call : ToolCall) : List Str :=
  let path := arg_string T call.arguments "path"
  if path.isEmpty then ["file:write:*"] else ["file:read:" ++ path, "file:write:" ++ path]

/-- The actions of a write: the parent directories, the truncating open, the bytes. -/
def WriteFileTool.store (path content : Str) : ToolM W ToolResult := do
  let _ ← ExceptT.lift (Proc.step fun w => ((), P.create_parent w path))
  let opened ← ExceptT.lift (Proc.step fun w =>
    match P.open_trunc w path with
    | some w' => (true, w')
    | none => (false, w))
  if opened then
    let written ← ExceptT.lift (Proc.step fun w =>
      match P.write w path content with
      | some w' => (true, w')
      | none => (false, w))
    if written then
      pure
        { output := .ofFields
            [("path", .string path), ("bytes", .number_unsigned content.length)]
          observed_resources := [path] }
    else pure (.failed ("write failed: " ++ path))
  else pure (.failed ("cannot open for write: " ++ path))

def WriteFileTool.invoke (call : ToolCall) (_ : Ctx U) : ToolM W ToolResult :=
  match (T.parse call.arguments).bind fun args =>
      (args.field? "path").bind fun p => (args.field? "content").map fun c => (p, c) with
  | none => pure (.failed "missing path/content")
  | some (p, c) => do
    let path ← ExceptT.mk (pure p.getString)
    let content ← ExceptT.mk (pure c.getString)
    WriteFileTool.store P path content

def WriteFileTool : Tool W U where
  descriptor := { name := "write_file", declared_resources := ["file:write"] }
  resources_for := WriteFileTool.resources_for T
  invoke := WriteFileTool.invoke T P

def ShellTool.descriptor : ToolDescriptor := { name := "shell", declared_resources := ["shell"] }

/-- The entries of `args`, if all are strings. -/
def ShellTool.argv (entries : List Json) : Option (List Str) :=
  entries.mapM fun
    | .string s => some s
    | _ => none

def ShellTool.invoke (ctx_ : Option (Ctx U)) (call : ToolCall) (ctx : Ctx U) :
    ToolM W ToolResult :=
  let active := ctx_.getD ctx
  match (T.parse call.arguments).bind fun args =>
      (args.field? "program").bind fun p => (args.field? "args").map fun a => (p, a) with
  | none => pure (.failed "missing program/args")
  | some (.string program, .array entries) =>
    match ShellTool.argv entries with
    | none => pure (.failed "every entry of args must be a string")
    | some argv => do
      let output ← active.exec_argv P program argv
      pure { output := .ofFields [("output", .string output)] }
  | some _ => pure (.failed "program must be a string and args an array")

def ShellTool (ctx_ : Option (Ctx U)) : Tool W U where
  descriptor := ShellTool.descriptor
  resources_for := default_resources_for ShellTool.descriptor
  invoke := ShellTool.invoke T P ctx_

section Names

variable (ctx : Option (Ctx U))

@[simp] theorem ReadFileTool_name : (ReadFileTool T P ctx).descriptor.name = "read_file" := rfl

@[simp] theorem WriteFileTool_name :
    (WriteFileTool T P : Tool W U).descriptor.name = "write_file" := rfl

@[simp] theorem ShellTool_name : (ShellTool T P ctx).descriptor.name = "shell" := rfl

end Names

/-- Without a context the tools get a `BasicContext` of their own. -/
def register_builtin_tools (registry : ToolRegistry W U) (ctx : Option (Ctx U)) :
    ToolRegistry W U :=
  let ctx := ctx.getD .basic
  ((registry.register_tool (some (ReadFileTool T P (some ctx)))).register_tool
    (some (WriteFileTool T P))).register_tool (some (ShellTool T P (some ctx)))

section Find

variable (registry : ToolRegistry W U) (ctx : Option (Ctx U))

theorem find_read_file :
    (register_builtin_tools T P registry ctx).find "read_file"
      = some (ReadFileTool T P (some (ctx.getD .basic))) := by
  unfold register_builtin_tools
  rw [ToolRegistry.find_register, ShellTool_name, if_neg (by decide), ToolRegistry.find_register,
    WriteFileTool_name, if_neg (by decide), ToolRegistry.find_register, ReadFileTool_name,
    if_pos rfl]

theorem find_write_file :
    (register_builtin_tools T P registry ctx).find "write_file" = some (WriteFileTool T P) := by
  unfold register_builtin_tools
  rw [ToolRegistry.find_register, ShellTool_name, if_neg (by decide), ToolRegistry.find_register,
    WriteFileTool_name, if_pos rfl]

end Find

/-! ## The flat file system -/

/-- A map from paths to bytes. -/
abbrev FlatFs := Str → Option Str

/-- A machine with nothing but a flat file system, on which every write succeeds. Which paths stand
below a directory is up to `below`. -/
def flatPlatform (below : FlatFs → Str → List Str) : Platform FlatFs Empty where
  read := fun fs path => fs path
  file_exists := fun fs path => .ok (fs path).isSome
  entries_below := fun fs root => .ok ((below fs root).map fun path => (path, true))
  last_write_time := fun fs path => (fs path).map fun _ => 0
  file_size := fun fs path => (fs path).map fun content => UInt64.ofNat content.length
  create_parent := fun fs _ => fs
  open_trunc := fun fs path => some (Function.update fs path (some []))
  write := fun fs path content =>
    some (Function.update fs path (some (((fs path).getD []) ++ content)))
  spawn := fun _ _ => .ret []
  user_read_file := nofun
  user_file_exists := nofun
  user_exec_argv := nofun
  user_fork := nofun

end Praxis
