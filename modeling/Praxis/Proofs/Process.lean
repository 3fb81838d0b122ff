import Mathlib.Data.List.TakeWhile
import Praxis.Lib.CommandLine
import Praxis.Lib.Shell
import Praxis.Process

/-!
# What the child sees

The fallback of `exec_argv` quotes so that a shell gives the child the program and the arguments,
whatever is in them (`words_joined`). The platforms do not agree: `execvp` gets the vector as it is,
but the line for Windows ends in a redirection that no shell is there to read, and the child gets
something else for every vector (`windows_argv_ne`). A line without arguments does not reach a shell
on POSIX either: it is looked up as a program (`execvp_intended_iff`).
-/

namespace Praxis

/-- What the POSIX shell reads: blanks are spaces and tabs. Unquoted, the operators, the starts of
expansions, patterns and assignments and the line end have a meaning; between double quotes the
dollar sign, the backquote, the backslash and the exclamation mark keep one. -/
def posixShell : Shell.Grammar UInt8 where
  single := 39
  double := 34
  blank := fun c => c = 32 ∨ c = 9
  special := fun c => c ∈ lit "|&;<>()$`\\*?[]#~=%!^\x7b\x7d\n"
  active := fun c => c ∈ lit "$`\\!"
  double_ne_single := by decide
  active_single := by decide

/-- The line that is run is cut into the program and the arguments. -/
theorem words_joined {β : Type} (exec : Str → β) (program : Str) (args : List Str) :
    ∃ line, ToolContext.exec_argv exec program args = exec line
      ∧ Shell.words posixShell (.outside none) line = some (program :: args) :=
  ⟨joined program args, rfl,
    Shell.words_quote (b := 32) (by decide) (by decide) (by decide) args program⟩

/-- How the C runtime of Windows reads a command line. -/
def windowsRuntime : CommandLine.Grammar UInt8 where
  mark := 34
  slash := 92
  blank := fun c => c = 32 ∨ c = 9
  mark_ne_slash := by decide
  blank_mark := by decide
  blank_slash := by decide

/-- The child's vector on Windows. -/
def WindowsPlatform.argv (spec : ProcessSpec) : List Str :=
  CommandLine.argv windowsRuntime (WindowsPlatform.full spec)

/-- A quote in an argument ends it. -/
example : WindowsPlatform.argv ⟨lit "git", [lit "a\" \"b"]⟩
    = [lit "git", lit "a", lit "b", lit "2>&1"] := by decide

/-- A string that a `char*` carries as a whole. -/
def NulFree (s : Str) : Prop := (0 : UInt8) ∉ s

theorem c_str_of_nulFree {s : Str} (h : NulFree s) : c_str s = s := by
  refine List.takeWhile_eq_self_iff.2 fun c hc => ?_
  have hne : c ≠ 0 := fun h0 => h (h0 ▸ hc)
  simpa using hne

theorem cmd_eq (args : List Str) (command : Str) :
    WindowsPlatform.cmd ⟨command, args⟩
      = command ++ args.flatMap (CommandLine.between windowsRuntime 32) := by
  unfold WindowsPlatform.cmd
  dsimp only
  induction args generalizing command with
  | nil => simp
  | cons a args ih =>
    rw [List.foldl_cons, ih, List.flatMap_cons, ← List.append_assoc]
    congr 1
    rw [List.append_assoc, List.append_assoc, List.append_assoc]
    rfl

section Argv

variable {spec : ProcessSpec}

theorem posix_argv_eq (hargs : spec.args ≠ []) (hcommand : NulFree spec.command)
    (hnul : ∀ a ∈ spec.args, NulFree a) :
    PosixPlatform.argv spec = spec.command :: spec.args := by
  have hself : ∀ s ∈ spec.command :: spec.args, c_str s = s :=
    List.forall_mem_cons.2 ⟨c_str_of_nulFree hcommand, fun a ha => c_str_of_nulFree (hnul a ha)⟩
  rw [PosixPlatform.argv, List.isEmpty_eq_false_iff.2 hargs, run_captured.argv]
  simpa using List.map_congr_left hself

theorem full_eq (hcommand : NulFree spec.command) (hnul : ∀ a ∈ spec.args, NulFree a) :
    WindowsPlatform.full spec = spec.command
      ++ (spec.args.flatMap (CommandLine.between windowsRuntime 32) ++ 32 :: lit "2>&1") := by
  rw [WindowsPlatform.full, cmd_eq spec.args spec.command, List.append_assoc]
  refine c_str_of_nulFree fun h => ?_
  simp only [List.mem_append, List.mem_flatMap] at h
  obtain h | ⟨a, ha, h⟩ | h := h
  · exact hcommand h
  · simp only [CommandLine.between, List.mem_cons, List.mem_append] at h
    obtain h | h | h | h | h := h
    · cases h
    · cases h
    · exact hnul a ha h
    · cases h
    · cases h
  · revert h
    decide

/-- `2>&1` is no redirection where no shell reads it. -/
theorem windows_argv_ne (hargs : spec.args ≠ []) (hcommand : NulFree spec.command)
    (hnul : ∀ a ∈ spec.args, NulFree a) :
    PosixPlatform.argv spec = spec.command :: spec.args
      ∧ WindowsPlatform.argv spec ≠ spec.command :: spec.args := by
  refine ⟨posix_argv_eq hargs hcommand hnul, ?_⟩
  have hplain : CommandLine.Plain windowsRuntime (lit "2>&1") := by
    unfold CommandLine.Plain
    decide +kernel
  rw [WindowsPlatform.argv, full_eq hcommand hnul]
  exact CommandLine.argv_ne (by decide) hplain (by decide) spec.command spec.args

theorem windows_argv_ne_log :
    WindowsPlatform.argv ⟨lit "git", [lit "log"]⟩ ≠ [lit "git", lit "log"] :=
  (windows_argv_ne (show (⟨lit "git", [lit "log"]⟩ : ProcessSpec).args ≠ [] by decide)
    (by unfold NulFree; decide)
    (by unfold NulFree; decide)).2

/-- The two platforms give `git log` different vectors. -/
theorem platforms_differ : ¬ ∀ spec : ProcessSpec, spec.args ≠ [] → NulFree spec.command →
    (∀ a ∈ spec.args, NulFree a) → PosixPlatform.argv spec = spec.command :: spec.args
      ∧ WindowsPlatform.argv spec = spec.command :: spec.args := by
  intro h
  have hargv := (h ⟨lit "git", [lit "log"]⟩ (by decide) (by unfold NulFree; decide)
    (by unfold NulFree; decide)).2
  exact absurd hargv (by decide)

/-- What a spec stands for: a program with its arguments, or a line for the shell. -/
def PosixPlatform.intended (spec : ProcessSpec) : ExecvpCall :=
  if spec.args = [] then ⟨lit "/bin/sh", [lit "/bin/sh", lit "-c", spec.command]⟩
  else ⟨spec.command, spec.command :: spec.args⟩

theorem execvp_of_args (hargs : spec.args ≠ []) (hcommand : NulFree spec.command)
    (hnul : ∀ a ∈ spec.args, NulFree a) :
    PosixPlatform.execvp spec = ⟨spec.command, spec.command :: spec.args⟩ := by
  have hargv : (PosixPlatform.execvp spec).argv = spec.command :: spec.args :=
    posix_argv_eq hargs hcommand hnul
  rw [← hargv, ← c_str_of_nulFree hcommand]
  rfl

/-- The line is looked up as a program, and the shell's own words are its arguments. -/
theorem execvp_of_line (hargs : spec.args = []) (hcommand : NulFree spec.command) :
    PosixPlatform.execvp spec
      = ⟨spec.command, [spec.command, lit "/bin/sh", lit "-c", spec.command]⟩ := by
  have hsh : c_str (lit "/bin/sh") = lit "/bin/sh" ∧ c_str (lit "-c") = lit "-c" := by decide
  simp [PosixPlatform.execvp, run_captured.execvp, run_captured.argv, hargs,
    c_str_of_nulFree hcommand, hsh]

/-- `run` executes what the spec stands for exactly if the spec has arguments. -/
theorem execvp_intended_iff (spec : ProcessSpec) (hcommand : NulFree spec.command)
    (hnul : ∀ a ∈ spec.args, NulFree a) :
    PosixPlatform.execvp spec = PosixPlatform.intended spec ↔ spec.args ≠ [] := by
  constructor
  · intro h hargs
    rw [execvp_of_line hargs hcommand, PosixPlatform.intended, if_pos hargs] at h
    have hlength := congrArg (fun call => call.argv.length) h
    simp at hlength
  · intro hargs
    rw [execvp_of_args hargs hcommand hnul, PosixPlatform.intended, if_neg hargs]

theorem execvp_intended_log :
    PosixPlatform.execvp ⟨lit "git", [lit "log"]⟩
      = PosixPlatform.intended ⟨lit "git", [lit "log"]⟩ :=
  (execvp_intended_iff ⟨lit "git", [lit "log"]⟩ (by unfold NulFree; decide)
    (by unfold NulFree; decide)).2 (by decide)

/-- A line without arguments does not get to the shell. -/
theorem execvp_line_ne : ¬ ∀ spec : ProcessSpec, NulFree spec.command →
    (∀ a ∈ spec.args, NulFree a) → PosixPlatform.execvp spec = PosixPlatform.intended spec := by
  intro h
  have hcall := h ⟨lit "ls -l", []⟩ (by unfold NulFree; decide) (by unfold NulFree; decide)
  exact absurd hcall (by decide)

end Argv

end Praxis
