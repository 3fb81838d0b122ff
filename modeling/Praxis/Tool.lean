import Praxis.Types
import Praxis.Lib.Interleave
import Mathlib.Data.List.AList

/-!
# Tools, their contexts and the registry

A tool acts on a world `W`: the file system and whatever else the processes of one machine share.
`U` stands for the user's own subclasses of `ToolContext`; a `Platform` says what they and the
operating system do.
-/

namespace Praxis

open Interleave (Proc)

/-- A tool's code: atomic actions on the world, ending in a value or a thrown exception. -/
abbrev ToolM (W : Type) := ExceptT Exn (Proc W)

namespace ToolM

variable {W α β : Type}

/-- The code run alone, to its end. -/
def exec (x : ToolM W α) (w : W) : Except Exn α × W := Proc.run (ExceptT.run x) w

@[simp] theorem exec_pure (a : α) (w : W) : exec (pure a : ToolM W α) w = (.ok a, w) := rfl

@[simp] theorem exec_mk (p : Proc W (Except Exn α)) (w : W) :
    exec (ExceptT.mk p) w = p.run w := rfl

@[simp] theorem exec_lift (p : Proc W α) (w : W) :
    exec (ExceptT.lift p : ToolM W α) w = (.ok (p.run w).1, (p.run w).2) :=
  Interleave.Proc.run_bind p _ w

@[simp] theorem exec_bind (x : ToolM W α) (f : α → ToolM W β) (w : W) :
    exec (x >>= f) w = match exec x w with
      | (.ok a, w') => exec (f a) w'
      | (.error e, w') => (.error e, w') := by
  refine (Interleave.Proc.run_bind (ExceptT.run x) _ w).trans ?_
  unfold exec
  rcases Proc.run (ExceptT.run x) w with ⟨_ | _, _⟩ <;> rfl

theorem exec_tryCatch (x : ToolM W α) (f : Exn → ToolM W α) (w : W) :
    exec (tryCatch x f) w = match exec x w with
      | (.ok a, w') => (.ok a, w')
      | (.error e, w') => exec (f e) w' := by
  refine (Interleave.Proc.run_bind (ExceptT.run x) _ w).trans ?_
  unfold exec
  rcases Proc.run (ExceptT.run x) w with ⟨_ | _, _⟩ <;> rfl

end ToolM

/-- A pointer to a `ToolContext`. -/
inductive Ctx (U : Type)
  | basic
  | stateless
  | user (u : U)
  deriving DecidableEq

/-- What the engine calls of the operating system, its files and child processes, and the methods
of the user's contexts. -/
structure Platform (W U : Type) where
  read : W → Str → Option Str
  file_exists : W → Str → Except Exn Bool
  /-- The entries below a directory, each with `is_regular_file`. -/
  entries_below : W → Str → Except Exn (List (Str × Bool))
  last_write_time : W → Str → Option ℤ
  file_size : W → Str → Option UInt64
  create_parent : W → Str → W
  open_trunc : W → Str → Option W
  write : W → Str → Str → Option W
  spawn : Str → List Str → Proc W Str
  user_read_file : U → Str → ToolM W Str
  user_file_exists : U → Str → ToolM W Bool
  user_exec_argv : U → Str → List Str → ToolM W Str
  user_fork : U → W → Ctx U × W

namespace Ctx

variable {W U : Type} (P : Platform W U)

def read_file : Ctx U → Str → ToolM W Str
  | basic, path => ExceptT.lift (.read fun w => (P.read w path).getD [])
  | stateless, _ => pure []
  | user u, path => P.user_read_file u path

def file_exists : Ctx U → Str → ToolM W Bool
  | basic, path => ExceptT.mk (.read fun w => P.file_exists w path)
  | stateless, _ => pure false
  | user u, path => P.user_file_exists u path

def exec_argv : Ctx U → Str → List Str → ToolM W Str
  | basic, program, args => ExceptT.lift (P.spawn program args)
  | stateless, _, _ => pure []
  | user u, program, args => P.user_exec_argv u program args

/-- `fork`: the context a worker gets for itself. -/
def fork : Ctx U → W → Ctx U × W
  | basic, w => (basic, w)
  | stateless, w => (stateless, w)
  | user u, w => P.user_fork u w

end Ctx

structure ToolDescriptor where
  name : Str
  declared_resources : List Str

structure Tool (W U : Type) where
  descriptor : ToolDescriptor
  resources_for : ToolCall → List Str
  invoke : ToolCall → Ctx U → ToolM W ToolResult

/-- `Tool::resources_for` where a tool does not override it. -/
def default_resources_for (descriptor : ToolDescriptor) (_ : ToolCall) : List Str :=
  descriptor.declared_resources

structure ToolRegistry (W U : Type) where
  tools : AList fun _ : Str => Tool W U := ∅

namespace ToolRegistry

variable {W U : Type}

def register_tool (registry : ToolRegistry W U) : Option (Tool W U) → ToolRegistry W U
  | none => registry
  | some tool => ⟨registry.tools.insert tool.descriptor.name tool⟩

def find (registry : ToolRegistry W U) (name : Str) : Option (Tool W U) :=
  registry.tools.lookup name

theorem find_register (registry : ToolRegistry W U) (tool : Tool W U) (name : Str) :
    (registry.register_tool (some tool)).find name
      = if name = tool.descriptor.name then some tool else registry.find name := by
  unfold find register_tool
  split_ifs with h
  · rw [h, AList.lookup_insert]
  · rw [AList.lookup_insert_ne h]

end ToolRegistry

end Praxis
