import Praxis.Lib.Dialogue
import Praxis.Process

/-!
# How a child process is supervised

The parent's side of a captured run, as the calls it makes and what it does with their answers:
`run_captured` of the POSIX platform, its copy in `BasicContext::exec_argv`, and `run` of the
Windows platform. The clock counts nanoseconds, timeouts are in milliseconds.
-/

namespace Praxis

structure CapturedRun where
  status : ℤ
  out : Str
  timed_out : Bool
  deriving DecidableEq

structure ProcessResult where
  exit_code : ℤ
  stdout_output : Str
  stderr_output : Str
  timed_out : Bool
  deriving DecidableEq

/-! ## POSIX -/

inductive Signal
  | SIGTERM
  | SIGKILL
  deriving DecidableEq

/-- The calls of the parent. -/
inductive PosixCall
  | pipe
  | fork
  | close (fd : ℕ)
  | now
  | poll (fd : ℕ) (timeout : ℤ)
  | read (fd : ℕ)
  | kill (pid : ℕ) (signal : Signal)
  | waitpid (pid : ℕ) (nohang : Bool)
  | nanosleep
  deriving DecidableEq

structure Revents where
  pollin : Bool := false
  pollhup : Bool := false
  pollerr : Bool := false
  pollnval : Bool := false
  deriving DecidableEq

inductive PosixAnswer
  | fds (read_end write_end : ℕ)
  | pid (pid : ℕ)
  | time (now : ℤ)
  | revents (revents : Revents)
  | bytes (chunk : Str)
  | reaped (status : ℕ)
  /-- Nothing to report: the call succeeded, `poll` ran out of time, the pipe is at its end or the
  child has not exited. -/
  | zero
  /-- The call failed with `EINTR`. -/
  | interrupted
  /-- The call failed with another error. -/
  | failed
  deriving DecidableEq

/-- The answers of a call whose result is not looked at. -/
def PosixAnswer.plain : PosixAnswer → Bool
  | zero | interrupted | failed => true
  | _ => false

def WIFEXITED (status : ℕ) : Bool := status % 128 = 0

def WEXITSTATUS (status : ℕ) : ℕ := status / 256 % 256

/-- The locals of the loop over `poll`. -/
structure Supervised where
  fd : ℕ
  pid : ℕ
  deadline : ℤ
  out : Str
  deriving DecidableEq

/-- The call that comes next, with the locals still in use. -/
inductive Supervisor
  | opening
  | forking (read_end write_end : ℕ)
  | parting (read_end write_end pid : ℕ)
  | timing (fd pid : ℕ)
  | checking (s : Supervised)
  | polling (s : Supervised) (timeout : ℤ)
  | reading (s : Supervised)
  | terminating (s : Supervised)
  | asking (s : Supervised) (i : ℕ)
  | napping (s : Supervised) (i : ℕ)
  | killing (s : Supervised)
  | reaping_killed (s : Supervised)
  | reaping (s : Supervised)
  /-- The descriptors to be closed before the run returns. -/
  | closing (fds : List ℕ) (result : CapturedRun)
  deriving DecidableEq

/-- Milliseconds in nanoseconds. -/
def milliseconds (ms : ℤ) : ℤ := ms * 1000000

/-- What is left, as the `int` that `poll` is given. -/
def poll_timeout (deadline now : ℤ) : ℤ :=
  let remaining := (deadline - now) / 1000000
  let remaining := if remaining < 1 then 1 else remaining
  remaining.bmod (2 ^ 32)

/-- How many times the parent asks before it kills. -/
def kGraceTicks : ℕ := 20

namespace Supervisor

def call : Supervisor → Option PosixCall
  | opening => some .pipe
  | forking _ _ => some .fork
  | parting _ write_end _ => some (.close write_end)
  | timing _ _ => some .now
  | checking _ => some .now
  | polling s timeout => some (.poll s.fd timeout)
  | reading s => some (.read s.fd)
  | terminating s => some (.kill s.pid .SIGTERM)
  | asking s _ => some (.waitpid s.pid true)
  | napping _ _ => some .nanosleep
  | killing s => some (.kill s.pid .SIGKILL)
  | reaping_killed s => some (.waitpid s.pid false)
  | reaping s => some (.waitpid s.pid false)
  | closing [] _ => none
  | closing (fd :: _) _ => some (.close fd)

/-- The run has returned. -/
def done (result : CapturedRun) : Supervisor := closing [] result

/-- The head of the loop that waits for the child to obey. -/
def grace (s : Supervised) (i : ℕ) : Supervisor := if i < kGraceTicks then asking s i else killing s

/-- After `SIGTERM` or `SIGKILL` has worked. -/
def overdue (s : Supervised) : Supervisor := closing [s.fd] ⟨-1, s.out, true⟩

/-- After the child has been waited for; the `status` of a wait that failed is still 0. -/
def finished (s : Supervised) (status : ℕ) : Supervisor :=
  closing [s.fd] ⟨if WIFEXITED status then WEXITSTATUS status else -1, s.out, false⟩

/-- What `pipe` and `fork` fail with. -/
def unstarted : CapturedRun := ⟨-1, [], false⟩

/-- `late` is appended to the output once the deadline has passed. -/
def resume (timeout : ℤ) (late : Str) : Supervisor → PosixAnswer → Option Supervisor
  | opening, .fds read_end write_end => some (forking read_end write_end)
  | opening, .failed => some (done unstarted)
  | forking read_end write_end, .pid pid => some (parting read_end write_end pid)
  | forking read_end write_end, .failed => some (closing [read_end, write_end] unstarted)
  | parting read_end _ pid, a => if a.plain then some (timing read_end pid) else none
  | timing fd pid, .time now => some (checking ⟨fd, pid, now + milliseconds timeout, []⟩)
  | checking s, .time now =>
    some (if s.deadline ≤ now then terminating { s with out := s.out ++ late }
      else polling s (poll_timeout s.deadline now))
  | polling s _, .interrupted => some (checking s)
  | polling s _, .failed => some (reaping s)
  | polling s _, .zero => some (checking s)
  | polling s _, .revents r =>
    some (if r.pollin || r.pollhup then reading s
      else if r.pollerr || r.pollnval then reaping s
      else checking s)
  | reading s, .bytes chunk =>
    if 0 < chunk.length ∧ chunk.length ≤ 4096 then
      some (checking { s with out := s.out ++ chunk })
    else none
  -- The end of the pipe and an error of `read` are taken alike.
  | reading s, a => if a.plain then some (reaping s) else none
  | terminating s, a => if a.plain then some (grace s 0) else none
  | asking s _, .reaped _ => some (overdue s)
  | asking s i, a => if a.plain then some (napping s i) else none
  | napping s i, a => if a.plain then some (grace s (i + 1)) else none
  | killing s, a => if a.plain then some (reaping_killed s) else none
  | reaping_killed s, .reaped _ => some (overdue s)
  | reaping_killed s, .interrupted => some (reaping_killed s)
  | reaping_killed s, .failed => some (overdue s)
  | reaping s, .reaped status => some (finished s status)
  | reaping s, .interrupted => some (reaping s)
  | reaping s, .failed => some (finished s 0)
  | closing (_ :: fds) result, a => if a.plain then some (closing fds result) else none
  | _, _ => none

end Supervisor

/-- A captured run with a deadline. -/
def supervise (timeout : ℤ) (late : Str) : Dialogue Supervisor PosixCall PosixAnswer where
  call := Supervisor.call
  resume := Supervisor.resume timeout late

def run_captured (timeout : ℤ) : Dialogue Supervisor PosixCall PosixAnswer := supervise timeout []

def kDefaultTimeout : ℤ := 30000

/-- The copy in `BasicContext::exec_argv`, which returns the output alone. -/
def BasicContext.exec_argv : Dialogue Supervisor PosixCall PosixAnswer :=
  supervise kDefaultTimeout
    (lit "\n[praxis] tool execution exceeded the 30s deadline; terminating child\n")

/-- "Forever" is a year. -/
def PosixPlatform.timeout (timeout : ℤ) : ℤ :=
  if timeout ≤ 0 then 24 * 365 * 3600 * 1000 else timeout

def PosixPlatform.run (timeout : ℤ) : Dialogue Supervisor PosixCall PosixAnswer :=
  run_captured (PosixPlatform.timeout timeout)

def PosixPlatform.result (captured : CapturedRun) : ProcessResult :=
  ⟨captured.status, captured.out, [], captured.timed_out⟩

/-! ## Windows -/

inductive WindowsCall
  | CreatePipe
  | CreateProcessA
  | CloseHandle (handle : ℕ)
  | now
  | WaitForMultipleObjects (process pipe : ℕ) (wait : ℕ)
  | ReadFile (pipe : ℕ)
  | TerminateProcess (process : ℕ)
  | WaitForSingleObject (process : ℕ)
  | GetExitCodeProcess (process : ℕ)
  deriving DecidableEq

inductive WindowsAnswer
  | pipe (read_pipe write_pipe : ℕ)
  | process (hProcess hThread : ℕ)
  | time (now : ℤ)
  | bytes (chunk : Str)
  | exit_code (code : ℕ)
  /-- The call succeeded; `ReadFile` read nothing. -/
  | done
  /-- `WAIT_OBJECT_0`. -/
  | exited
  /-- `WAIT_OBJECT_0 + 1`. -/
  | readable
  /-- `WAIT_TIMEOUT`. -/
  | elapsed
  | failed
  deriving DecidableEq

/-- The answers of a call whose result is not looked at. -/
def WindowsAnswer.plain : WindowsAnswer → Bool
  | done | failed => true
  | _ => false

namespace WindowsPlatform

/-- The locals of the loop, and the handles of the child. -/
structure Supervised where
  hProcess : ℕ
  hThread : ℕ
  read_pipe : ℕ
  deadline : ℤ
  out : Str
  deriving DecidableEq

/-- The call that comes next. -/
inductive Supervisor
  | opening
  | spawning (read_pipe write_pipe : ℕ)
  | parting (hProcess hThread read_pipe write_pipe : ℕ)
  | timing (hProcess hThread read_pipe : ℕ)
  | checking (s : Supervised)
  | waiting (s : Supervised) (wait : ℕ)
  | draining (s : Supervised)
  | reading (s : Supervised)
  | terminating (s : Supervised)
  | reaping_terminated (s : Supervised)
  | reaping (s : Supervised)
  | asking (s : Supervised)
  | closing (handles : List ℕ) (result : ProcessResult)
  deriving DecidableEq

/-- What is left, as the `DWORD` that the wait is given. -/
def wait_ms (deadline now : ℤ) : ℕ :=
  let remaining_ms := (deadline - now) / 1000000
  let remaining_ms := if remaining_ms < 1 then 1 else remaining_ms
  (remaining_ms % 2 ^ 32).toNat

namespace Supervisor

def call : Supervisor → Option WindowsCall
  | opening => some .CreatePipe
  | spawning _ _ => some .CreateProcessA
  | parting _ _ _ write_pipe => some (.CloseHandle write_pipe)
  | timing _ _ _ => some .now
  | checking _ => some .now
  | waiting s wait => some (.WaitForMultipleObjects s.hProcess s.read_pipe wait)
  | draining s => some (.ReadFile s.read_pipe)
  | reading s => some (.ReadFile s.read_pipe)
  | terminating s => some (.TerminateProcess s.hProcess)
  | reaping_terminated s => some (.WaitForSingleObject s.hProcess)
  | reaping s => some (.WaitForSingleObject s.hProcess)
  | asking s => some (.GetExitCodeProcess s.hProcess)
  | closing [] _ => none
  | closing (handle :: _) _ => some (.CloseHandle handle)

/-- The run has returned. -/
def done (result : ProcessResult) : Supervisor := closing [] result

def finished (s : Supervised) (exit_code : ℕ) : Supervisor :=
  closing [s.hProcess, s.hThread, s.read_pipe] ⟨(exit_code : ℤ).bmod (2 ^ 32), s.out, [], false⟩

def resume (timeout : ℤ) : Supervisor → WindowsAnswer → Option Supervisor
  | opening, .pipe read_pipe write_pipe => some (spawning read_pipe write_pipe)
  | opening, .failed => some (done ⟨-1, [], lit "create pipe failed", false⟩)
  | spawning read_pipe write_pipe, .process hProcess hThread =>
    some (parting hProcess hThread read_pipe write_pipe)
  | spawning read_pipe write_pipe, .failed =>
    some (closing [read_pipe, write_pipe] ⟨-1, [], lit "create process failed", false⟩)
  | parting hProcess hThread read_pipe _, a =>
    if a.plain then some (timing hProcess hThread read_pipe) else none
  | timing hProcess hThread read_pipe, .time now =>
    some (checking ⟨hProcess, hThread, read_pipe, now + milliseconds timeout, []⟩)
  | checking s, .time now =>
    some (if s.deadline ≤ now then terminating s else waiting s (wait_ms s.deadline now))
  | waiting s _, .elapsed => some (checking s)
  | waiting s _, .failed => some (reaping s)
  | waiting s _, .exited => some (draining s)
  | waiting s _, .readable => some (reading s)
  | draining s, .bytes chunk =>
    if 0 < chunk.length ∧ chunk.length ≤ 4096 then
      some (draining { s with out := s.out ++ chunk })
    else none
  | draining s, a => if a.plain then some (reaping s) else none
  | reading s, .bytes chunk =>
    if 0 < chunk.length ∧ chunk.length ≤ 4096 then
      some (checking { s with out := s.out ++ chunk })
    else none
  | reading s, a => if a.plain then some (checking s) else none
  | terminating s, a => if a.plain then some (reaping_terminated s) else none
  | reaping_terminated s, a =>
    if a.plain then
      some (closing [s.hProcess, s.hThread, s.read_pipe] ⟨-1, s.out, lit "timeout", true⟩)
    else none
  | reaping s, a => if a.plain then some (asking s) else none
  | asking s, .exit_code code => some (finished s code)
  -- The exit code stays 0.
  | asking s, .failed => some (finished s 0)
  | closing (_ :: handles) result, a => if a.plain then some (closing handles result) else none
  | _, _ => none

end Supervisor

/-- The timeout is taken as it is. -/
def run (timeout : ℤ) : Dialogue Supervisor WindowsCall WindowsAnswer where
  call := Supervisor.call
  resume := Supervisor.resume timeout

end WindowsPlatform

end Praxis
