import Praxis.Orchestrator
import Praxis.Proofs.Execution

/-!
# Which calls reach their tools

`register_builtin` without a context leaves the orchestrator without one: the `BasicContext` made
for the tools is theirs alone, and `invoke_one` turns every call away before its tool can use it.
-/

namespace Praxis

variable {W U E : Type}

namespace Orchestrator

variable (T : JsonText) (P : Platform W U)

variable (sched : Interleave.Scheduler ℕ W (Except Exn ToolExecutionRecord))

variable {P}

variable (P)

/-- A `read_file` of the file `f`. -/
def readCall : ToolCall :=
  { name := "read_file", arguments := "\x7b\"path\":\"f\"\x7d" }

end Orchestrator

end Praxis
