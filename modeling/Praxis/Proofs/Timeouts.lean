import Praxis.Proofs.Supervise

/-!
# What a timeout means on the two platforms

`WindowsPlatform.run` takes its timeout as it is, and what a finished run comes to is one of four
accounts. A timeout that is not positive means opposite things on the two platforms
(`opposite_timeouts`).
-/

namespace Praxis

namespace WindowsPlatform

/-- What the calls of a run come to. -/
structure Account where
  opened : List ℕ := []
  closed : List ℕ := []
  readings : List ℤ := []
  output : Str := []
  terminated : List ℕ := []

/-- What a call and its answer add. -/
def Account.add (account : Account) : WindowsCall × WindowsAnswer → Account
  | (.CreatePipe, .pipe read_pipe write_pipe) =>
    { account with opened := account.opened ++ [read_pipe, write_pipe] }
  | (.CreateProcessA, .process hProcess hThread) =>
    { account with opened := account.opened ++ [hProcess, hThread] }
  | (.CloseHandle handle, _) => { account with closed := account.closed ++ [handle] }
  | (.now, .time now) => { account with readings := account.readings ++ [now] }
  | (.ReadFile _, .bytes chunk) => { account with output := account.output ++ chunk }
  | (.TerminateProcess process, _) =>
    { account with terminated := account.terminated ++ [process] }
  | _ => account

def account (xs : List (WindowsCall × WindowsAnswer)) : Account := xs.foldl Account.add {}

theorem account_snoc (xs : List (WindowsCall × WindowsAnswer)) (x : WindowsCall × WindowsAnswer) :
    account (xs ++ [x]) = (account xs).add x := by
  simp [account]

/-- Something is read only after the clock has been found to be in time. -/
def ReadInTime (timeout : ℤ) (readings : List ℤ) (output : Str) : Prop :=
  output = [] ∨ ∃ start rest, readings = start :: rest
    ∧ ∃ now ∈ rest, now < start + milliseconds timeout

/-- The ways a run ends, with what it then has called and what it returns. -/
inductive Accounted (timeout : ℤ) : Account → ProcessResult → Prop
  | unpiped : Accounted timeout {} ⟨-1, [], lit "create pipe failed", false⟩
  | unspawned (r w : ℕ) :
      Accounted timeout { opened := [r, w], closed := [r, w] }
        ⟨-1, [], lit "create process failed", false⟩
  /-- The child was terminated. -/
  | overdue (r w p t : ℕ) (readings : List ℤ) (output : Str) (h : Overdue timeout readings)
      (hread : ReadInTime timeout readings output) :
      Accounted timeout
        { opened := [r, w, p, t], closed := [w, p, t, r], readings, output, terminated := [p] }
        ⟨-1, output, lit "timeout", true⟩
  /-- The child exited, or the wait failed. -/
  | exited (r w p t : ℕ) (exit_code : ℤ) (readings : List ℤ) (output : Str)
      (h : InTime timeout readings) (hread : 2 ≤ readings.length) :
      Accounted timeout
        { opened := [r, w, p, t], closed := [w, p, t, r], readings, output }
        ⟨exit_code, output, [], false⟩

namespace Supervisor

variable {timeout : ℤ}

/-- What the supervisor can do. -/
inductive Move (timeout : ℤ) : Supervisor → WindowsCall × WindowsAnswer → Supervisor → Prop
  | piped (r w : ℕ) : Move timeout opening (.CreatePipe, .pipe r w) (spawning r w)
  | unpiped :
      Move timeout opening (.CreatePipe, .failed) (done ⟨-1, [], lit "create pipe failed", false⟩)
  | spawned (r w p t : ℕ) :
      Move timeout (spawning r w) (.CreateProcessA, .process p t) (parting p t r w)
  | unspawned (r w : ℕ) :
      Move timeout (spawning r w) (.CreateProcessA, .failed)
        (closing [r, w] ⟨-1, [], lit "create process failed", false⟩)
  | parted (p t r w : ℕ) (a : WindowsAnswer) :
      Move timeout (parting p t r w) (.CloseHandle w, a) (timing p t r)
  | timed (p t r : ℕ) (now : ℤ) :
      Move timeout (timing p t r) (.now, .time now)
        (checking ⟨p, t, r, now + milliseconds timeout, []⟩)
  | overran {s : Supervised} {now : ℤ} (h : s.deadline ≤ now) :
      Move timeout (checking s) (.now, .time now) (terminating s)
  | early {s : Supervised} {now : ℤ} (h : now < s.deadline) :
      Move timeout (checking s) (.now, .time now) (waiting s (wait_ms s.deadline now))
  /-- What a wait leads to adds nothing to the account. -/
  | waited (s : Supervised) (ms : ℕ) (a : WindowsAnswer) {t : Supervisor}
      (h : t = checking s ∨ t = reaping s ∨ t = draining s ∨ t = reading s) :
      Move timeout (waiting s ms) (.WaitForMultipleObjects s.hProcess s.read_pipe ms, a) t
  | drained (s : Supervised) (chunk : Str) :
      Move timeout (draining s) (.ReadFile s.read_pipe, .bytes chunk)
        (draining { s with out := s.out ++ chunk })
  | dry (s : Supervised) {a : WindowsAnswer} (h : a.plain = true) :
      Move timeout (draining s) (.ReadFile s.read_pipe, a) (reaping s)
  | chunk (s : Supervised) (chunk : Str) :
      Move timeout (reading s) (.ReadFile s.read_pipe, .bytes chunk)
        (checking { s with out := s.out ++ chunk })
  | ended (s : Supervised) {a : WindowsAnswer} (h : a.plain = true) :
      Move timeout (reading s) (.ReadFile s.read_pipe, a) (checking s)
  | terminated (s : Supervised) (a : WindowsAnswer) :
      Move timeout (terminating s) (.TerminateProcess s.hProcess, a) (reaping_terminated s)
  | buried (s : Supervised) (a : WindowsAnswer) :
      Move timeout (reaping_terminated s) (.WaitForSingleObject s.hProcess, a)
        (closing [s.hProcess, s.hThread, s.read_pipe] ⟨-1, s.out, lit "timeout", true⟩)
  | reaped (s : Supervised) (a : WindowsAnswer) :
      Move timeout (reaping s) (.WaitForSingleObject s.hProcess, a) (asking s)
  | asked (s : Supervised) (a : WindowsAnswer) (code : ℕ) :
      Move timeout (asking s) (.GetExitCodeProcess s.hProcess, a) (finished s code)
  | closed (handle : ℕ) (handles : List ℕ) (result : ProcessResult) (a : WindowsAnswer) :
      Move timeout (closing (handle :: handles) result) (.CloseHandle handle, a)
        (closing handles result)

section Resume

variable {s : Supervised} {t : Supervisor} {a : WindowsAnswer}

theorem move_opening (h : resume timeout opening a = some t) :
    Move timeout opening (.CreatePipe, a) t := by
  cases a <;> simp only [resume, Option.some.injEq, reduceCtorEq] at h <;> subst h
  · exact .piped _ _
  · exact .unpiped

theorem move_spawning {r w : ℕ} (h : resume timeout (spawning r w) a = some t) :
    Move timeout (spawning r w) (.CreateProcessA, a) t := by
  cases a <;> simp only [resume, Option.some.injEq, reduceCtorEq] at h <;> subst h
  · exact .spawned r w _ _
  · exact .unspawned r w

theorem move_timing {p u r : ℕ} (h : resume timeout (timing p u r) a = some t) :
    Move timeout (timing p u r) (.now, a) t := by
  cases a <;> simp only [resume, Option.some.injEq, reduceCtorEq] at h
  subst h
  exact .timed p u r _

theorem move_checking (h : resume timeout (checking s) a = some t) :
    Move timeout (checking s) (.now, a) t := by
  cases a <;> simp only [resume, Option.some.injEq, reduceCtorEq] at h
  subst h
  split_ifs with hlate
  · exact .overran hlate
  · exact .early (not_le.1 hlate)

theorem move_waiting {ms : ℕ} (h : resume timeout (waiting s ms) a = some t) :
    Move timeout (waiting s ms) (.WaitForMultipleObjects s.hProcess s.read_pipe ms, a) t := by
  cases a <;> simp only [resume, Option.some.injEq, reduceCtorEq] at h <;> subst h
  all_goals exact .waited s ms _ (by simp)

theorem move_draining (h : resume timeout (draining s) a = some t) :
    Move timeout (draining s) (.ReadFile s.read_pipe, a) t := by
  cases a <;> simp only [resume] at h
  case bytes chunk =>
    split_ifs at h
    obtain rfl := Option.some.inj h
    exact .drained s chunk
  all_goals
    obtain ⟨ha, ⟨⟩⟩ := Option.ite_none_right_eq_some.1 h
    exact .dry s ha

theorem move_reading (h : resume timeout (reading s) a = some t) :
    Move timeout (reading s) (.ReadFile s.read_pipe, a) t := by
  cases a <;> simp only [resume] at h
  case bytes chunk =>
    split_ifs at h
    obtain rfl := Option.some.inj h
    exact .chunk s chunk
  all_goals
    obtain ⟨ha, ⟨⟩⟩ := Option.ite_none_right_eq_some.1 h
    exact .ended s ha

theorem move_asking (h : resume timeout (asking s) a = some t) :
    Move timeout (asking s) (.GetExitCodeProcess s.hProcess, a) t := by
  cases a <;> simp only [resume, Option.some.injEq, reduceCtorEq] at h <;> subst h
  · exact .asked s _ _
  · exact .asked s _ 0

end Resume

theorem move_of_resume {s t : Supervisor} {c : WindowsCall} {a : WindowsAnswer}
    (hcall : s.call = some c) (h : resume timeout s a = some t) : Move timeout s (c, a) t := by
  cases s with
  | opening =>
    cases hcall
    exact move_opening h
  | spawning r w =>
    cases hcall
    exact move_spawning h
  | parting p u r w =>
    cases hcall
    obtain ⟨-, ⟨⟩⟩ := Option.ite_none_right_eq_some.1 h
    exact .parted p u r w a
  | timing p u r =>
    cases hcall
    exact move_timing h
  | checking s =>
    cases hcall
    exact move_checking h
  | waiting s ms =>
    cases hcall
    exact move_waiting h
  | draining s =>
    cases hcall
    exact move_draining h
  | reading s =>
    cases hcall
    exact move_reading h
  | terminating s =>
    cases hcall
    obtain ⟨-, ⟨⟩⟩ := Option.ite_none_right_eq_some.1 h
    exact .terminated s a
  | reaping_terminated s =>
    cases hcall
    obtain ⟨-, ⟨⟩⟩ := Option.ite_none_right_eq_some.1 h
    exact .buried s a
  | reaping s =>
    cases hcall
    obtain ⟨-, ⟨⟩⟩ := Option.ite_none_right_eq_some.1 h
    exact .reaped s a
  | asking s =>
    cases hcall
    exact move_asking h
  | closing handles result =>
    cases handles with
    | nil => cases hcall
    | cons handle handles =>
      cases hcall
      obtain ⟨-, ⟨⟩⟩ := Option.ite_none_right_eq_some.1 h
      exact .closed handle handles result a

/-- Every step is a move. -/
theorem move_of_step {s t : Supervisor} {x : WindowsCall × WindowsAnswer}
    (h : (run timeout).step s x = some t) : Move timeout s x t := by
  obtain ⟨hcall, hresume⟩ := Dialogue.step_eq_some.1 h
  exact move_of_resume hcall hresume

/-- The account while the child is supervised. -/
def Watched (timeout : ℤ) (account : Account) (s : Supervised) (readings : List ℤ)
    (terminated : List ℕ) : Prop :=
  ReadInTime timeout readings s.out
    ∧ ∃ w, account = { opened := [s.read_pipe, w, s.hProcess, s.hThread], closed := [w], readings
                       output := s.out, terminated }

/-- The account in the loop, after so many looks at the clock. -/
def Waited (timeout : ℤ) (looks : ℕ) (account : Account) (s : Supervised) : Prop :=
  ∃ start rest, Watched timeout account s (start :: rest) [] ∧ looks ≤ rest.length
    ∧ s.deadline = start + milliseconds timeout ∧ ∀ now ∈ rest, now < s.deadline

/-- The account once the deadline has passed. -/
def Passed (timeout : ℤ) (account : Account) (s : Supervised) (terminated : List ℕ) : Prop :=
  ∃ readings, Watched timeout account s readings terminated ∧ Overdue timeout readings

/-- The account of what has been called so far. -/
def Told (timeout : ℤ) (account : Account) : Supervisor → Prop
  | opening => account = {}
  | spawning r w => account = { opened := [r, w] }
  | parting p t r w => account = { opened := [r, w, p, t] }
  | timing p t r => ∃ w, account = { opened := [r, w, p, t], closed := [w] }
  | checking s => Waited timeout 0 account s
  | waiting s _ | draining s | reading s | reaping s | asking s => Waited timeout 1 account s
  | terminating s => Passed timeout account s []
  | reaping_terminated s => Passed timeout account s [s.hProcess]
  | closing handles result =>
    Accounted timeout { account with closed := account.closed ++ handles } result

theorem readInTime_snoc {start now : ℤ} {rest : List ℤ} {output : Str}
    (h : ReadInTime timeout (start :: rest) output) :
    ReadInTime timeout (start :: (rest ++ [now])) output := by
  rcases h with h | ⟨start', rest', hreadings, now', hnow', hlt⟩
  · exact .inl h
  · cases hreadings
    exact .inr ⟨start, rest ++ [now], rfl, now', List.mem_append_left _ hnow', hlt⟩

theorem Waited.mono {a : Account} {s : Supervised} (h : Waited timeout 1 a s) :
    Waited timeout 0 a s := by
  obtain ⟨start, rest, hwatched, -, hrest⟩ := h
  exact ⟨start, rest, hwatched, Nat.zero_le _, hrest⟩

/-- There has been a look at the clock before something is read. -/
theorem Waited.read {a : Account} {s : Supervised} (h : Waited timeout 1 a s) (chunk : Str) :
    Waited timeout 1 { a with output := a.output ++ chunk } { s with out := s.out ++ chunk } := by
  obtain ⟨start, rest, ⟨-, w, rfl⟩, hlooks, hdeadline, hrest⟩ := h
  obtain ⟨now, hnow⟩ := List.exists_mem_of_length_pos hlooks
  exact ⟨start, rest, ⟨.inr ⟨start, rest, rfl, now, hnow, hdeadline ▸ hrest now hnow⟩, w, rfl⟩,
    hlooks, hdeadline, hrest⟩

theorem add_read_plain {a : WindowsAnswer} (account : Account) (pipe : ℕ) (h : a.plain = true) :
    account.add (.ReadFile pipe, a) = account := by
  cases a with
  | bytes chunk => cases h
  | _ => rfl

theorem told_step {s t : Supervisor} {x : WindowsCall × WindowsAnswer} {a : Account}
    (ha : Told timeout a s) (h : Move timeout s x t) : Told timeout (a.add x) t := by
  cases h with
  | piped r w =>
    cases ha
    rfl
  | unpiped =>
    cases ha
    exact .unpiped
  | spawned r w p t =>
    cases ha
    rfl
  | unspawned r w =>
    cases ha
    exact .unspawned r w
  | parted p t r w =>
    cases ha
    exact ⟨w, rfl⟩
  | timed p t r now =>
    obtain ⟨w, rfl⟩ := ha
    exact ⟨now, [], ⟨.inl rfl, w, rfl⟩, le_refl 0, rfl, by simp⟩
  | @overran s now h =>
    obtain ⟨start, rest, ⟨hread, w, rfl⟩, -, hdeadline, hrest⟩ := ha
    exact ⟨start :: (rest ++ [now]), ⟨readInTime_snoc hread, w, rfl⟩,
      start, rest ++ [now], rfl, now, by simp, hdeadline ▸ h⟩
  | @early s now h =>
    obtain ⟨start, rest, ⟨hread, w, rfl⟩, -, hdeadline, hrest⟩ := ha
    refine ⟨start, rest ++ [now], ⟨readInTime_snoc hread, w, rfl⟩, by simp, hdeadline, ?_⟩
    simpa [or_imp, forall_and] using ⟨hrest, h⟩
  | waited s ms a h =>
    rcases h with rfl | rfl | rfl | rfl
    · exact Waited.mono ha
    · exact ha
    · exact ha
    · exact ha
  | drained s chunk => exact Waited.read ha chunk
  | dry s h =>
    rw [add_read_plain a s.read_pipe h]
    exact ha
  | chunk s chunk => exact (Waited.read ha chunk).mono
  | ended s h =>
    rw [add_read_plain a s.read_pipe h]
    exact Waited.mono ha
  | terminated s a =>
    obtain ⟨readings, ⟨hread, w, rfl⟩, hover⟩ := ha
    exact ⟨readings, ⟨hread, w, rfl⟩, hover⟩
  | buried s a =>
    obtain ⟨readings, ⟨hread, w, rfl⟩, hover⟩ := ha
    exact .overdue s.read_pipe w s.hProcess s.hThread readings s.out hover hread
  | reaped s a => exact ha
  | asked s a code =>
    obtain ⟨start, rest, ⟨-, w, rfl⟩, hlooks, hdeadline, hrest⟩ := ha
    exact .exited s.read_pipe w s.hProcess s.hThread _ (start :: rest) s.out
      ⟨start, rest, rfl, hdeadline ▸ hrest⟩ (Nat.succ_le_succ hlooks)
  | closed handle handles result =>
    show Accounted timeout { a with closed := (a.closed ++ [handle]) ++ handles } result
    rw [List.append_assoc]
    exact ha

/-- Every run that returns is one of four. -/
theorem accounted_of_done {result : ProcessResult} {xs : List (WindowsCall × WindowsAnswer)}
    (h : (run timeout).after opening xs = some (done result)) :
    Accounted timeout (account xs) result := by
  have htold : Accounted timeout { account xs with closed := (account xs).closed ++ [] } result :=
    Dialogue.along (s := opening) (P := fun xs s => Told timeout (account xs) s) rfl
      (fun xs _ x _ hs hx => account_snoc xs x ▸ told_step hs (move_of_step hx)) h
  rwa [List.append_nil] at htold

end Supervisor

/-- No time is left from the start. -/
theorem not_inTime {timeout : ℤ} {readings : List ℤ} (htimeout : timeout ≤ 0)
    (hclock : readings.IsChain (· ≤ ·)) (hlooks : 2 ≤ readings.length) :
    ¬ InTime timeout readings := by
  rintro ⟨start, rest, rfl, hrest⟩
  obtain ⟨now, hnow⟩ := List.exists_mem_of_length_pos (Nat.le_of_succ_le_succ hlooks)
  rw [List.isChain_iff_pairwise, List.pairwise_cons] at hclock
  have hstart := hclock.1 now hnow
  have hlt := hrest now hnow
  unfold milliseconds at hlt
  omega

/-- Nothing is read, since no look at the clock is in time. -/
theorem output_eq_nil {timeout : ℤ} {readings : List ℤ} {output : Str} (htimeout : timeout ≤ 0)
    (hclock : readings.IsChain (· ≤ ·)) (hread : ReadInTime timeout readings output) :
    output = [] := by
  rcases hread with h | ⟨start, rest, rfl, now, hnow, hlt⟩
  · exact h
  · rw [List.isChain_iff_pairwise, List.pairwise_cons] at hclock
    have hstart := hclock.1 now hnow
    unfold milliseconds at hlt
    omega

end WindowsPlatform

/-- A timeout that is not positive. Windows terminates whatever child it has started, before any
output is read; POSIX lets it run for a year. -/
theorem opposite_timeouts {timeout : ℤ} (htimeout : timeout ≤ 0) :
    (∀ xs result,
      (WindowsPlatform.run timeout).after .opening xs
        = some (WindowsPlatform.Supervisor.done result) →
      (WindowsPlatform.account xs).readings.IsChain (· ≤ ·) →
      (WindowsPlatform.account xs).readings ≠ [] →
        result = ⟨-1, [], lit "timeout", true⟩
          ∧ ∃ process, (WindowsPlatform.account xs).terminated = [process])
      ∧ ∀ xs result,
        (PosixPlatform.run timeout).after .opening xs = some (Supervisor.done result) →
        (∀ start rest, (account xs).readings = start :: rest →
          ∀ now ∈ rest, now < start + milliseconds (24 * 365 * 3600 * 1000)) →
          (PosixPlatform.result result).timed_out = false ∧ (account xs).signals = [] := by
  refine ⟨fun xs result hxs hclock hstarted => ?_, fun xs result hxs hyear => ?_⟩
  · have haccounted := WindowsPlatform.Supervisor.accounted_of_done hxs
    generalize WindowsPlatform.account xs = a at haccounted hclock hstarted ⊢
    cases haccounted with
    | unpiped => exact absurd rfl hstarted
    | unspawned r w => exact absurd rfl hstarted
    | overdue r w p t readings output hover hread =>
      obtain rfl := WindowsPlatform.output_eq_nil htimeout hclock hread
      exact ⟨rfl, p, rfl⟩
    | exited r w p t exit_code readings output hin hlooks =>
      exact absurd hin (WindowsPlatform.not_inTime htimeout hclock hlooks)
  · have hyears : PosixPlatform.timeout timeout = 24 * 365 * 3600 * 1000 := if_pos htimeout
    rw [PosixPlatform.run, hyears] at hxs
    have haccounted := Supervisor.accounted_of_done hxs
    generalize account xs = a at haccounted hyear ⊢
    cases haccounted with
    | obeyed r w pid status readings output hover =>
      obtain ⟨start, rest, hreadings, now, hnow, hle⟩ := hover
      exact absurd hle (not_le.2 (hyear start rest hreadings now hnow))
    | killed r w pid reaped readings output hover =>
      obtain ⟨start, rest, hreadings, now, hnow, hle⟩ := hover
      exact absurd hle (not_le.2 (hyear start rest hreadings now hnow))
    | _ => exact ⟨rfl, rfl⟩

/-- The calls for a child of Windows that gets no time. -/
def WindowsPlatform.hasty : List (WindowsCall × WindowsAnswer) :=
  [(.CreatePipe, .pipe 1 2), (.CreateProcessA, .process 3 4), (.CloseHandle 2, .done),
    (.now, .time 7), (.now, .time 7), (.TerminateProcess 3, .done), (.WaitForSingleObject 3, .done),
    (.CloseHandle 3, .done), (.CloseHandle 4, .done), (.CloseHandle 1, .done)]

/-- The calls for a child of POSIX that takes five nanoseconds. -/
def patient : List (PosixCall × PosixAnswer) :=
  [(.pipe, .fds 3 4), (.fork, .pid 9), (.close 4, .zero), (.now, .time 0), (.now, .time 5),
    (.poll 3 1471228927, .revents { pollhup := true }), (.read 3, .zero),
    (.waitpid 9 false, .reaped 0), (.close 3, .zero)]

theorem opposite_timeouts_zero :
    (∃ process, (WindowsPlatform.account WindowsPlatform.hasty).terminated = [process])
      ∧ (PosixPlatform.result ⟨0, [], false⟩).timed_out = false
      ∧ (account patient).signals = [] := by
  obtain ⟨hwindows, hposix⟩ := opposite_timeouts (le_refl 0)
  refine ⟨(hwindows WindowsPlatform.hasty ⟨-1, [], lit "timeout", true⟩ (by decide +kernel)
    (show [(7 : ℤ), 7].IsChain (· ≤ ·) by decide) (show [(7 : ℤ), 7] ≠ [] by decide)).2,
    hposix patient ⟨0, [], false⟩ (by decide +kernel) fun start rest hreadings now hnow => ?_⟩
  obtain ⟨rfl, rfl⟩ := List.cons.inj (show [(0 : ℤ), 5] = start :: rest from hreadings)
  rw [List.mem_singleton.1 hnow]
  decide

end Praxis
