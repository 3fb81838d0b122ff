import Praxis.Bytes

/-!
# What a child process is given

The command lines and argument vectors that the engine builds, up to the call that starts the
child: `exec_argv` where a context does not override it, and `run` of the two platforms.
-/

namespace Praxis

/-! ## The command line of `ToolContext::exec_argv` -/

/-- One word between single quotes; a single quote in it is closed, written between double quotes,
and opened again. -/
def single_quoted (word : Str) : Str :=
  [39] ++ word.flatMap (fun c => if c = 39 then lit "'\"'\"'" else [c]) ++ [39]

def joined (program : Str) (args : List Str) : Str :=
  single_quoted program ++ args.flatMap fun a => lit " " ++ single_quoted a

/-- `ToolContext::exec_argv`, for a context whose `exec` runs a command line. -/
def ToolContext.exec_argv {β : Type} (exec : Str → β) (program : Str) (args : List Str) : β :=
  exec (joined program args)

example : joined (lit "echo") [lit "it's", []] = lit "'echo' 'it'\"'\"'s' ''" := by decide

/-! ## The platforms -/

structure ProcessSpec where
  command : Str
  args : List Str

/-- What is read through a `char*`: up to the first NUL. -/
def c_str (s : Str) : Str := s.takeWhile (· ≠ 0)

/-- The vector that `run_captured` passes to `execvp`. -/
def run_captured.argv (program : Str) (args : List Str) : List Str := (program :: args).map c_str

/-- The vector of `PosixPlatform::run`. A spec without arguments is a line for the shell. -/
def PosixPlatform.argv (spec : ProcessSpec) : List Str :=
  run_captured.argv spec.command
    (if !spec.args.isEmpty then spec.args else [lit "/bin/sh", lit "-c", spec.command])

/-- A call of `execvp`. -/
structure ExecvpCall where
  file : Str
  argv : List Str
  deriving DecidableEq

/-- The call that the child of `run_captured` makes. -/
def run_captured.execvp (program : Str) (args : List Str) : ExecvpCall where
  file := c_str program
  argv := run_captured.argv program args

/-- The call of `PosixPlatform::run`, which passes the command as the program on both paths. -/
def PosixPlatform.execvp (spec : ProcessSpec) : ExecvpCall :=
  run_captured.execvp spec.command
    (if !spec.args.isEmpty then spec.args else [lit "/bin/sh", lit "-c", spec.command])

/-- The loop of `WindowsPlatform::run` that appends the arguments. -/
def WindowsPlatform.cmd (spec : ProcessSpec) : Str :=
  spec.args.foldl (fun cmd a => cmd ++ lit " " ++ lit "\"" ++ a ++ lit "\"") spec.command

/-- The line that `CreateProcessA` is given. -/
def WindowsPlatform.full (spec : ProcessSpec) : Str :=
  c_str (WindowsPlatform.cmd spec ++ lit " 2>&1")

end Praxis
