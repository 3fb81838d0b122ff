import Praxis.Supervise

/-!
# What a captured run amounts to

`Move` lists what the supervisor can do. From it, all that a finished run has called comes to one of
six accounts (`run_accounted`).
-/

namespace Praxis

/-- What the calls of a run come to. -/
structure Account where
  opened : List ℕ := []
  closed : List ℕ := []
  children : List ℕ := []
  readings : List ℤ := []
  output : Str := []
  signals : List (ℕ × Signal) := []
  reaped : List (ℕ × ℕ) := []

/-- What a call and its answer add. -/
def Account.add (account : Account) : PosixCall × PosixAnswer → Account
  | (.pipe, .fds read_end write_end) =>
    { account with opened := account.opened ++ [read_end, write_end] }
  | (.close fd, _) => { account with closed := account.closed ++ [fd] }
  | (.fork, .pid pid) => { account with children := account.children ++ [pid] }
  | (.now, .time now) => { account with readings := account.readings ++ [now] }
  | (.read _, .bytes chunk) => { account with output := account.output ++ chunk }
  | (.kill pid signal, _) => { account with signals := account.signals ++ [(pid, signal)] }
  | (.waitpid pid _, .reaped status) => { account with reaped := account.reaped ++ [(pid, status)] }
  | _ => account

/-- What is not looked at adds nothing, unless the call itself counts. -/
theorem add_read_plain {a : PosixAnswer} (account : Account) (fd : ℕ) (h : a.plain = true) :
    account.add (.read fd, a) = account := by
  cases a with
  | bytes chunk => cases h
  | _ => rfl

theorem add_waitpid_plain {a : PosixAnswer} (account : Account) (pid : ℕ) (nohang : Bool)
    (h : a.plain = true) : account.add (.waitpid pid nohang, a) = account := by
  cases a with
  | reaped status => cases h
  | _ => rfl

def account (xs : List (PosixCall × PosixAnswer)) : Account := xs.foldl Account.add {}

theorem account_snoc (xs : List (PosixCall × PosixAnswer)) (x : PosixCall × PosixAnswer) :
    account (xs ++ [x]) = (account xs).add x := by
  simp [account]

namespace Supervisor

variable {timeout : ℤ} {late : Str}

/-- What the supervisor can do. -/
inductive Move (timeout : ℤ) (late : Str) :
    Supervisor → PosixCall × PosixAnswer → Supervisor → Prop
  | piped (r w : ℕ) : Move timeout late opening (.pipe, .fds r w) (forking r w)
  | unpiped : Move timeout late opening (.pipe, .failed) (done unstarted)
  | forked (r w pid : ℕ) : Move timeout late (forking r w) (.fork, .pid pid) (parting r w pid)
  | unforked (r w : ℕ) :
      Move timeout late (forking r w) (.fork, .failed) (closing [r, w] unstarted)
  | parted (r w pid : ℕ) {a : PosixAnswer} (h : a.plain = true) :
      Move timeout late (parting r w pid) (.close w, a) (timing r pid)
  | timed (fd pid : ℕ) (now : ℤ) :
      Move timeout late (timing fd pid) (.now, .time now)
        (checking ⟨fd, pid, now + milliseconds timeout, []⟩)
  | overran {s : Supervised} {now : ℤ} (h : s.deadline ≤ now) :
      Move timeout late (checking s) (.now, .time now)
        (terminating { s with out := s.out ++ late })
  | early {s : Supervised} {now : ℤ} (h : now < s.deadline) :
      Move timeout late (checking s) (.now, .time now) (polling s (poll_timeout s.deadline now))
  | again (s : Supervised) (ms : ℤ) (a : PosixAnswer) :
      Move timeout late (polling s ms) (.poll s.fd ms, a) (checking s)
  | readable (s : Supervised) (ms : ℤ) (a : PosixAnswer) :
      Move timeout late (polling s ms) (.poll s.fd ms, a) (reading s)
  | broken (s : Supervised) (ms : ℤ) (a : PosixAnswer) :
      Move timeout late (polling s ms) (.poll s.fd ms, a) (reaping s)
  | chunk (s : Supervised) (chunk : Str) :
      Move timeout late (reading s) (.read s.fd, .bytes chunk)
        (checking { s with out := s.out ++ chunk })
  | ended (s : Supervised) {a : PosixAnswer} (h : a.plain = true) :
      Move timeout late (reading s) (.read s.fd, a) (reaping s)
  | warned (s : Supervised) {a : PosixAnswer} (h : a.plain = true) :
      Move timeout late (terminating s) (.kill s.pid .SIGTERM, a) (grace s 0)
  | obeyed (s : Supervised) (i status : ℕ) :
      Move timeout late (asking s i) (.waitpid s.pid true, .reaped status) (overdue s)
  | alive (s : Supervised) (i : ℕ) {a : PosixAnswer} (h : a.plain = true) :
      Move timeout late (asking s i) (.waitpid s.pid true, a) (napping s i)
  | slept (s : Supervised) (i : ℕ) {a : PosixAnswer} (h : a.plain = true) :
      Move timeout late (napping s i) (.nanosleep, a) (grace s (i + 1))
  | killed (s : Supervised) {a : PosixAnswer} (h : a.plain = true) :
      Move timeout late (killing s) (.kill s.pid .SIGKILL, a) (reaping_killed s)
  | buried (s : Supervised) (status : ℕ) :
      Move timeout late (reaping_killed s) (.waitpid s.pid false, .reaped status) (overdue s)
  | unburied (s : Supervised) :
      Move timeout late (reaping_killed s) (.waitpid s.pid false, .failed) (overdue s)
  | rewaited (s : Supervised) :
      Move timeout late (reaping_killed s) (.waitpid s.pid false, .interrupted) (reaping_killed s)
  | exited (s : Supervised) (status : ℕ) :
      Move timeout late (reaping s) (.waitpid s.pid false, .reaped status) (finished s status)
  | lost (s : Supervised) :
      Move timeout late (reaping s) (.waitpid s.pid false, .failed) (finished s 0)
  | retried (s : Supervised) :
      Move timeout late (reaping s) (.waitpid s.pid false, .interrupted) (reaping s)
  | closed (fd : ℕ) (fds : List ℕ) (result : CapturedRun) {a : PosixAnswer} (h : a.plain = true) :
      Move timeout late (closing (fd :: fds) result) (.close fd, a) (closing fds result)

section Resume

variable {s : Supervised} {t : Supervisor} {a : PosixAnswer}

theorem move_opening (h : resume timeout late opening a = some t) :
    Move timeout late opening (.pipe, a) t := by
  cases a <;> simp only [resume, Option.some.injEq, reduceCtorEq] at h <;> subst h
  · exact .piped _ _
  · exact .unpiped

theorem move_forking {r w : ℕ} (h : resume timeout late (forking r w) a = some t) :
    Move timeout late (forking r w) (.fork, a) t := by
  cases a <;> simp only [resume, Option.some.injEq, reduceCtorEq] at h <;> subst h
  · exact .forked r w _
  · exact .unforked r w

theorem move_parting {r w pid : ℕ} (h : resume timeout late (parting r w pid) a = some t) :
    Move timeout late (parting r w pid) (.close w, a) t := by
  obtain ⟨ha, ⟨⟩⟩ := Option.ite_none_right_eq_some.1 h
  exact .parted r w pid ha

theorem move_timing {fd pid : ℕ} (h : resume timeout late (timing fd pid) a = some t) :
    Move timeout late (timing fd pid) (.now, a) t := by
  cases a <;> simp only [resume, Option.some.injEq, reduceCtorEq] at h
  subst h
  exact .timed fd pid _

theorem move_checking (h : resume timeout late (checking s) a = some t) :
    Move timeout late (checking s) (.now, a) t := by
  cases a <;> simp only [resume, Option.some.injEq, reduceCtorEq] at h
  subst h
  split_ifs with hlate
  · exact .overran hlate
  · exact .early (not_le.1 hlate)

theorem move_polling {ms : ℤ} (h : resume timeout late (polling s ms) a = some t) :
    Move timeout late (polling s ms) (.poll s.fd ms, a) t := by
  cases a <;> simp only [resume, Option.some.injEq, reduceCtorEq] at h <;> subst h
  · split_ifs
    · exact .readable s ms _
    · exact .broken s ms _
    · exact .again s ms _
  · exact .again s ms _
  · exact .again s ms _
  · exact .broken s ms _

theorem move_reading (h : resume timeout late (reading s) a = some t) :
    Move timeout late (reading s) (.read s.fd, a) t := by
  cases a <;> simp only [resume] at h
  case bytes chunk =>
    split_ifs at h
    obtain rfl := Option.some.inj h
    exact .chunk s chunk
  all_goals
    obtain ⟨ha, ⟨⟩⟩ := Option.ite_none_right_eq_some.1 h
    exact .ended s ha

theorem move_terminating (h : resume timeout late (terminating s) a = some t) :
    Move timeout late (terminating s) (.kill s.pid .SIGTERM, a) t := by
  obtain ⟨ha, ⟨⟩⟩ := Option.ite_none_right_eq_some.1 h
  exact .warned s ha

theorem move_asking {i : ℕ} (h : resume timeout late (asking s i) a = some t) :
    Move timeout late (asking s i) (.waitpid s.pid true, a) t := by
  cases a <;> simp only [resume] at h
  case reaped status =>
    obtain rfl := Option.some.inj h
    exact .obeyed s i status
  all_goals
    obtain ⟨ha, ⟨⟩⟩ := Option.ite_none_right_eq_some.1 h
    exact .alive s i ha

theorem move_napping {i : ℕ} (h : resume timeout late (napping s i) a = some t) :
    Move timeout late (napping s i) (.nanosleep, a) t := by
  obtain ⟨ha, ⟨⟩⟩ := Option.ite_none_right_eq_some.1 h
  exact .slept s i ha

theorem move_killing (h : resume timeout late (killing s) a = some t) :
    Move timeout late (killing s) (.kill s.pid .SIGKILL, a) t := by
  obtain ⟨ha, ⟨⟩⟩ := Option.ite_none_right_eq_some.1 h
  exact .killed s ha

theorem move_reaping_killed (h : resume timeout late (reaping_killed s) a = some t) :
    Move timeout late (reaping_killed s) (.waitpid s.pid false, a) t := by
  cases a <;> simp only [resume, Option.some.injEq, reduceCtorEq] at h <;> subst h
  · exact .buried s _
  · exact .rewaited s
  · exact .unburied s

theorem move_reaping (h : resume timeout late (reaping s) a = some t) :
    Move timeout late (reaping s) (.waitpid s.pid false, a) t := by
  cases a <;> simp only [resume, Option.some.injEq, reduceCtorEq] at h <;> subst h
  · exact .exited s _
  · exact .retried s
  · exact .lost s

theorem move_closing {fd : ℕ} {fds : List ℕ} {result : CapturedRun}
    (h : resume timeout late (closing (fd :: fds) result) a = some t) :
    Move timeout late (closing (fd :: fds) result) (.close fd, a) t := by
  obtain ⟨ha, ⟨⟩⟩ := Option.ite_none_right_eq_some.1 h
  exact .closed fd fds result ha

end Resume

theorem move_of_resume {s t : Supervisor} {c : PosixCall} {a : PosixAnswer}
    (hcall : s.call = some c) (h : resume timeout late s a = some t) :
    Move timeout late s (c, a) t := by
  cases s with
  | opening =>
    cases hcall
    exact move_opening h
  | forking r w =>
    cases hcall
    exact move_forking h
  | parting r w pid =>
    cases hcall
    exact move_parting h
  | timing fd pid =>
    cases hcall
    exact move_timing h
  | checking s =>
    cases hcall
    exact move_checking h
  | polling s ms =>
    cases hcall
    exact move_polling h
  | reading s =>
    cases hcall
    exact move_reading h
  | terminating s =>
    cases hcall
    exact move_terminating h
  | asking s i =>
    cases hcall
    exact move_asking h
  | napping s i =>
    cases hcall
    exact move_napping h
  | killing s =>
    cases hcall
    exact move_killing h
  | reaping_killed s =>
    cases hcall
    exact move_reaping_killed h
  | reaping s =>
    cases hcall
    exact move_reaping h
  | closing fds result =>
    cases fds with
    | nil => cases hcall
    | cons fd fds =>
      cases hcall
      exact move_closing h

/-- Every step is a move. -/
theorem move_of_step {s t : Supervisor} {x : PosixCall × PosixAnswer}
    (h : (supervise timeout late).step s x = some t) : Move timeout late s x t := by
  obtain ⟨hcall, hresume⟩ := Dialogue.step_eq_some.1 h
  exact move_of_resume hcall hresume

end Supervisor

/-- Of these readings of the clock the first sets the deadline and one of the others is past it. -/
def Overdue (timeout : ℤ) (readings : List ℤ) : Prop :=
  ∃ start rest, readings = start :: rest ∧ ∃ now ∈ rest, start + milliseconds timeout ≤ now

/-- Whether the clock has passed the deadline, as far as it has been read. -/
def InTime (timeout : ℤ) (readings : List ℤ) : Prop :=
  ∃ start rest, readings = start :: rest ∧ ∀ now ∈ rest, now < start + milliseconds timeout

/-- The ways a run ends, with what it then has called and what it returns. -/
inductive Accounted (timeout : ℤ) (late : Str) : Account → CapturedRun → Prop
  /-- There was no pipe. -/
  | unpiped : Accounted timeout late {} ⟨-1, [], false⟩
  /-- There was no child. -/
  | unforked (r w : ℕ) :
      Accounted timeout late { opened := [r, w], closed := [r, w] } ⟨-1, [], false⟩
  /-- The child obeyed `SIGTERM`. -/
  | obeyed (r w pid status : ℕ) (readings : List ℤ) (output : Str) (h : Overdue timeout readings) :
      Accounted timeout late
        { opened := [r, w], closed := [w, r], children := [pid], readings, output
          signals := [(pid, .SIGTERM)], reaped := [(pid, status)] }
        ⟨-1, output ++ late, true⟩
  /-- The child was killed. -/
  | killed (r w pid : ℕ) (reaped : List (ℕ × ℕ)) (readings : List ℤ) (output : Str)
      (h : Overdue timeout readings) (hreaped : reaped = [] ∨ ∃ status, reaped = [(pid, status)]) :
      Accounted timeout late
        { opened := [r, w], closed := [w, r], children := [pid], readings, output
          signals := [(pid, .SIGTERM), (pid, .SIGKILL)], reaped }
        ⟨-1, output ++ late, true⟩
  /-- The child exited or died by itself. -/
  | exited (r w pid status : ℕ) (readings : List ℤ) (output : Str) (h : InTime timeout readings) :
      Accounted timeout late
        { opened := [r, w], closed := [w, r], children := [pid], readings, output
          reaped := [(pid, status)] }
        ⟨if WIFEXITED status then WEXITSTATUS status else -1, output, false⟩
  /-- There was no child to wait for, and the run returns 0. -/
  | lost (r w pid : ℕ) (readings : List ℤ) (output : Str) (h : InTime timeout readings) :
      Accounted timeout late
        { opened := [r, w], closed := [w, r], children := [pid], readings, output }
        ⟨0, output, false⟩

namespace Supervisor

/-- The account while the child is supervised. -/
def Watched (account : Account) (s : Supervised) (output : Str) (readings : List ℤ)
    (signals : List Signal) : Prop :=
  ∃ w, account = { opened := [s.fd, w], closed := [w], children := [s.pid], readings, output
                   signals := signals.map fun signal => (s.pid, signal) }

/-- The account in the loop over `poll`. -/
def Polled (timeout : ℤ) (account : Account) (s : Supervised) : Prop :=
  ∃ start rest, Watched account s s.out (start :: rest) []
    ∧ s.deadline = start + milliseconds timeout ∧ ∀ now ∈ rest, now < s.deadline

/-- The account once the deadline has passed. -/
def Passed (timeout : ℤ) (late : Str) (account : Account) (s : Supervised) (signals : List Signal) :
    Prop :=
  ∃ output readings, Watched account s output readings signals ∧ Overdue timeout readings
    ∧ s.out = output ++ late

/-- The account of what has been called so far. -/
def Told (timeout : ℤ) (late : Str) (account : Account) : Supervisor → Prop
  | opening => account = {}
  | forking r w => account = { opened := [r, w] }
  | parting r w pid => account = { opened := [r, w], children := [pid] }
  | timing r pid => ∃ w, account = { opened := [r, w], closed := [w], children := [pid] }
  | checking s | polling s _ | reading s | reaping s => Polled timeout account s
  | terminating s => Passed timeout late account s []
  | asking s i | napping s i => i < kGraceTicks ∧ Passed timeout late account s [.SIGTERM]
  | killing s => Passed timeout late account s [.SIGTERM]
  | reaping_killed s => Passed timeout late account s [.SIGTERM, .SIGKILL]
  | closing fds result =>
    Accounted timeout late { account with closed := account.closed ++ fds } result

theorem told_grace {a : Account} {s : Supervised} (h : Passed timeout late a s [.SIGTERM]) (i : ℕ) :
    Told timeout late a (grace s i) := by
  unfold grace
  split_ifs with hi
  · exact ⟨hi, h⟩
  · exact h

theorem told_step {s t : Supervisor} {x : PosixCall × PosixAnswer} {a : Account}
    (ha : Told timeout late a s) (h : Move timeout late s x t) :
    Told timeout late (a.add x) t := by
  cases h with
  | piped r w =>
    cases ha
    rfl
  | unpiped =>
    cases ha
    exact .unpiped
  | forked r w pid =>
    cases ha
    rfl
  | unforked r w =>
    cases ha
    exact .unforked r w
  | parted r w pid h =>
    cases ha
    exact ⟨w, rfl⟩
  | timed fd pid now =>
    obtain ⟨w, rfl⟩ := ha
    exact ⟨now, [], ⟨w, rfl⟩, rfl, by simp⟩
  | @overran s now h =>
    obtain ⟨start, rest, ⟨w, rfl⟩, hdeadline, hrest⟩ := ha
    exact ⟨s.out, start :: (rest ++ [now]), ⟨w, rfl⟩,
      ⟨start, rest ++ [now], rfl, now, by simp, hdeadline ▸ h⟩, rfl⟩
  | @early s now h =>
    obtain ⟨start, rest, ⟨w, rfl⟩, hdeadline, hrest⟩ := ha
    refine ⟨start, rest ++ [now], ⟨w, rfl⟩, hdeadline, ?_⟩
    simpa [or_imp, forall_and] using ⟨hrest, h⟩
  | again s ms a => exact ha
  | readable s ms a => exact ha
  | broken s ms a => exact ha
  | chunk s chunk =>
    obtain ⟨start, rest, ⟨w, rfl⟩, hdeadline, hrest⟩ := ha
    exact ⟨start, rest, ⟨w, rfl⟩, hdeadline, hrest⟩
  | ended s h =>
    rw [add_read_plain a s.fd h]
    exact ha
  | warned s h =>
    obtain ⟨output, readings, ⟨w, rfl⟩, hover, hout⟩ := ha
    exact told_grace ⟨output, readings, ⟨w, rfl⟩, hover, hout⟩ 0
  | obeyed s i status =>
    obtain ⟨-, output, readings, ⟨w, rfl⟩, hover, hout⟩ := ha
    rw [overdue, hout]
    exact .obeyed s.fd w s.pid status readings output hover
  | alive s i h =>
    rw [add_waitpid_plain a s.pid true h]
    exact ha
  | slept s i h => exact told_grace ha.2 (i + 1)
  | killed s h =>
    obtain ⟨output, readings, ⟨w, rfl⟩, hover, hout⟩ := ha
    exact ⟨output, readings, ⟨w, rfl⟩, hover, hout⟩
  | buried s status =>
    obtain ⟨output, readings, ⟨w, rfl⟩, hover, hout⟩ := ha
    rw [overdue, hout]
    exact .killed s.fd w s.pid _ readings output hover (.inr ⟨status, rfl⟩)
  | unburied s =>
    obtain ⟨output, readings, ⟨w, rfl⟩, hover, hout⟩ := ha
    rw [overdue, hout]
    exact .killed s.fd w s.pid _ readings output hover (.inl rfl)
  | rewaited s => exact ha
  | exited s status =>
    obtain ⟨start, rest, ⟨w, rfl⟩, hdeadline, hrest⟩ := ha
    exact .exited s.fd w s.pid status (start :: rest) s.out ⟨start, rest, rfl, hdeadline ▸ hrest⟩
  | lost s =>
    obtain ⟨start, rest, ⟨w, rfl⟩, hdeadline, hrest⟩ := ha
    exact .lost s.fd w s.pid (start :: rest) s.out ⟨start, rest, rfl, hdeadline ▸ hrest⟩
  | retried s => exact ha
  | closed fd fds result h =>
    show Accounted timeout late { a with closed := (a.closed ++ [fd]) ++ fds } result
    rw [List.append_assoc]
    exact ha

/-- What has been called so far comes to this. -/
theorem told_after {s : Supervisor} {xs : List (PosixCall × PosixAnswer)}
    (h : (supervise timeout late).after opening xs = some s) :
    Told timeout late (account xs) s :=
  Dialogue.along (s := opening) (P := fun xs s => Told timeout late (account xs) s) rfl
    (fun xs _ x _ hs hx => account_snoc xs x ▸ told_step hs (move_of_step hx)) h

/-- A signal goes to the child, as long as it has not been reaped. -/
theorem told_kill {a : Account} {s : Supervisor} {pid : ℕ} {signal : Signal}
    (ha : Told timeout late a s) (h : s.call = some (.kill pid signal)) :
    a.children = [pid] ∧ a.reaped = [] := by
  cases s with
  | terminating s =>
    cases h
    obtain ⟨output, readings, ⟨w, rfl⟩, -, -⟩ := ha
    exact ⟨rfl, rfl⟩
  | killing s =>
    cases h
    obtain ⟨output, readings, ⟨w, rfl⟩, -, -⟩ := ha
    exact ⟨rfl, rfl⟩
  | closing fds result => cases fds <;> cases h
  | _ => cases h

theorem accounted_of_done {result : CapturedRun} {xs : List (PosixCall × PosixAnswer)}
    (h : (supervise timeout late).after opening xs = some (done result)) :
    Accounted timeout late (account xs) result := by
  have htold : Accounted timeout late { account xs with closed := (account xs).closed ++ [] }
    result := told_after h
  rwa [List.append_nil] at htold

/-- A run that has returned is one of six, and no run sends a signal but to its child, nor after
the child has been reaped. -/
theorem run_accounted {s : Supervisor} {xs : List (PosixCall × PosixAnswer)}
    (h : (supervise timeout late).after opening xs = some s) :
    (∀ result, s = done result → Accounted timeout late (account xs) result)
      ∧ ∀ ys x zs, xs = ys ++ x :: zs → ∀ pid signal, x.1 = .kill pid signal →
        (account ys).children = [pid] ∧ (account ys).reaped = [] := by
  refine ⟨fun result hresult => accounted_of_done (hresult ▸ h),
    fun ys x zs hxs pid signal hx => ?_⟩
  subst hxs
  obtain ⟨s, hs, hrest⟩ := Dialogue.after_append.1 h
  obtain ⟨t, hstep, -⟩ := Dialogue.after_cons.1 hrest
  exact told_kill (told_after hs) (hx ▸ (Dialogue.step_eq_some.1 hstep).1)

/-- The calls of a child that writes a line and exits. -/
def greeting : List (PosixCall × PosixAnswer) :=
  [(.pipe, .fds 3 4), (.fork, .pid 9), (.close 4, .zero), (.now, .time 0), (.now, .time 5),
    (.poll 3 29999, .revents { pollin := true }), (.read 3, .bytes (lit "hi\n")), (.now, .time 6),
    (.poll 3 29999, .revents { pollhup := true }), (.read 3, .zero),
    (.waitpid 9 false, .reaped 256), (.close 3, .zero)]

theorem run_accounted_greeting :
    Accounted 30000 [] (account greeting) ⟨1, lit "hi\n", false⟩ :=
  (run_accounted (show (supervise 30000 []).after opening greeting
    = some (done ⟨1, lit "hi\n", false⟩) by decide +kernel)).1 _ rfl

/-! ## After the deadline -/

/-- The deadline has passed, or nothing is left but to close. -/
def Past : Supervisor → Prop
  | terminating _ | killing _ | reaping_killed _ => True
  | asking _ i | napping _ i => i < kGraceTicks
  | closing fds _ => fds.length ≤ 2
  | _ => False

/-- The calls that are left, waits that are interrupted apart. -/
def remaining : Supervisor → ℕ
  | terminating _ => 2 * kGraceTicks + 4
  | asking _ i => 2 * (kGraceTicks - i) + 3
  | napping _ i => 2 * (kGraceTicks - i) + 2
  | killing _ => 3
  | reaping_killed _ => 2
  | closing fds _ => fds.length
  | _ => 0

/-- A wait that is started anew. -/
def interrupted : PosixCall × PosixAnswer → Bool
  | (.waitpid _ false, .interrupted) => true
  | _ => false

theorem past_grace (s : Supervised) (i : ℕ) :
    Past (grace s i) ∧ remaining (grace s i) ≤ 2 * (kGraceTicks - i) + 3 := by
  unfold grace
  split_ifs with h
  · exact ⟨h, le_refl _⟩
  · exact ⟨trivial, Nat.le_add_left 3 _⟩

theorem past_move {s t : Supervisor} {x : PosixCall × PosixAnswer} (hs : Past s)
    (h : Move timeout late s x t) :
    Past t ∧ remaining t + 1 ≤ remaining s + if interrupted x then 1 else 0 := by
  cases h with
  | warned s h =>
    obtain ⟨hpast, hle⟩ := past_grace s 0
    refine ⟨hpast, ?_⟩
    show remaining (grace s 0) + 1 ≤ 2 * kGraceTicks + 4 + _
    omega
  | obeyed s i status =>
    refine ⟨by simp [overdue, Past], ?_⟩
    simp only [remaining, overdue, List.length_singleton]
    omega
  | alive s i h => exact ⟨hs, by simp only [remaining]; omega⟩
  | slept s i h =>
    obtain ⟨hpast, hle⟩ := past_grace s (i + 1)
    refine ⟨hpast, ?_⟩
    have hi : i < kGraceTicks := hs
    show remaining (grace s (i + 1)) + 1 ≤ 2 * (kGraceTicks - i) + 2 + _
    omega
  | killed s h => exact ⟨trivial, by simp [remaining]⟩
  | buried s status => exact ⟨by simp [overdue, Past], by simp [remaining, overdue]⟩
  | unburied s => exact ⟨by simp [overdue, Past], by simp [remaining, overdue]⟩
  | rewaited s => exact ⟨trivial, by simp [interrupted]⟩
  | closed fd fds result h =>
    have hfds : (fd :: fds).length ≤ 2 := hs
    rw [List.length_cons] at hfds
    refine ⟨show fds.length ≤ 2 by omega, ?_⟩
    simp only [remaining, List.length_cons]
    omega
  | _ => exact hs.elim

/-- Before the run has returned there is a call that can be answered. -/
theorem exists_step (s : Supervisor) :
    (∃ result, s = done result) ∨ ∃ x t, (supervise timeout late).step s x = some t := by
  have hstep : ∀ {c a t}, s.call = some c → resume timeout late s a = some t →
      ∃ x t, (supervise timeout late).step s x = some t :=
    fun {c a t} hcall hresume => ⟨(c, a), t, Dialogue.step_eq_some.2 ⟨hcall, hresume⟩⟩
  cases s with
  | opening => exact .inr (hstep (a := .failed) rfl rfl)
  | forking r w => exact .inr (hstep (a := .failed) rfl rfl)
  | timing fd pid => exact .inr (hstep (a := .time 0) rfl rfl)
  | checking s => exact .inr (hstep (a := .time 0) rfl rfl)
  | closing fds result =>
    cases fds with
    | nil => exact .inl ⟨result, rfl⟩
    | cons fd fds => exact .inr (hstep (a := .zero) rfl rfl)
  | reaping s => exact .inr (hstep (a := .failed) rfl rfl)
  | reaping_killed s => exact .inr (hstep (a := .failed) rfl rfl)
  | _ => exact .inr (hstep (a := .zero) rfl rfl)

theorem not_overdue_of_inTime {readings : List ℤ} (h : InTime timeout readings) :
    ¬ Overdue timeout readings := by
  rintro ⟨start, rest, hreadings, now, hnow, hle⟩
  obtain ⟨start', rest', hreadings', hlt⟩ := h
  obtain ⟨rfl, rfl⟩ := List.cons.inj (hreadings ▸ hreadings')
  exact absurd hle (not_le.2 (hlt now hnow))

theorem closed_le {a : Account} {result : CapturedRun} (h : Accounted timeout late a result) :
    a.closed.length ≤ 2 := by
  cases h with
  | unpiped => exact Nat.zero_le 2
  | _ => exact le_refl 2

theorem past_of_overdue {a : Account} {s : Supervisor} (ha : Told timeout late a s)
    (hover : Overdue timeout a.readings) : s.Past ∧ s.remaining ≤ 2 * kGraceTicks + 4 := by
  have hunread : a.readings ≠ [] := by
    obtain ⟨start, rest, hreadings, -⟩ := hover
    rw [hreadings]
    exact List.cons_ne_nil start rest
  have hpolled : ∀ s, ¬ Polled timeout a s := by
    rintro s ⟨start, rest, ⟨w, rfl⟩, hdeadline, hrest⟩
    exact not_overdue_of_inTime ⟨start, rest, rfl, hdeadline ▸ hrest⟩ hover
  cases s with
  | opening => exact absurd (congrArg Account.readings ha) hunread
  | forking r w => exact absurd (congrArg Account.readings ha) hunread
  | parting r w pid => exact absurd (congrArg Account.readings ha) hunread
  | timing r pid =>
    obtain ⟨w, ha⟩ := ha
    exact absurd (congrArg Account.readings ha) hunread
  | checking s => exact absurd ha (hpolled s)
  | polling s ms => exact absurd ha (hpolled s)
  | reading s => exact absurd ha (hpolled s)
  | reaping s => exact absurd ha (hpolled s)
  | terminating s => exact ⟨trivial, le_refl _⟩
  | asking s i => exact ⟨ha.1, by simp only [remaining]; omega⟩
  | napping s i => exact ⟨ha.1, by simp only [remaining]; omega⟩
  | killing s => exact ⟨trivial, by simp only [remaining]; omega⟩
  | reaping_killed s => exact ⟨trivial, by simp only [remaining]; omega⟩
  | closing fds result =>
    have hfds : fds.length ≤ 2 := (closed_le ha).trans' (by simp)
    exact ⟨hfds, by simp only [remaining]; omega⟩

/-- Once the clock has passed the deadline, the run returns after a few more calls. -/
theorem returns_of_overdue {xs ys : List (PosixCall × PosixAnswer)} {s t : Supervisor}
    (hxs : (supervise timeout late).after opening xs = some s)
    (hover : Overdue timeout (account xs).readings)
    (hys : (supervise timeout late).after s ys = some t) :
    ys.length ≤ 44 + ys.countP interrupted
      ∧ ((∃ result, t = done result) ∨ ∃ x u, (supervise timeout late).step t x = some u) := by
  refine ⟨?_, exists_step t⟩
  obtain ⟨hpast, hle⟩ := past_of_overdue (told_after hxs) hover
  have hlength := Dialogue.length_le (I := Past) remaining interrupted
    (fun t x u ht hx => (past_move ht (move_of_step hx)).1)
    (fun t x u ht hx => (past_move ht (move_of_step hx)).2) hpast hys
  simp only [kGraceTicks] at hle
  omega

/-- The calls up to a deadline that has passed at once. -/
def hasty : List (PosixCall × PosixAnswer) :=
  [(.pipe, .fds 3 4), (.fork, .pid 9), (.close 4, .zero), (.now, .time 0), (.now, .time 0)]

theorem returns_of_overdue_hasty :
    [(PosixCall.kill 9 .SIGTERM, PosixAnswer.zero), (.waitpid 9 true, .reaped 15),
      (.close 3, .zero)].length ≤ 44 + 0 :=
  (returns_of_overdue
    (show (supervise 0 []).after opening hasty = some (terminating ⟨3, 9, 0, []⟩) by decide +kernel)
    ⟨0, [0], rfl, 0, by simp, le_refl 0⟩
    (show (supervise 0 []).after (terminating ⟨3, 9, 0, []⟩) _
      = some (done ⟨-1, [], true⟩) by decide +kernel)).1

theorem poll_timeout_of_lt {deadline now : ℤ} (h : (deadline - now) / 1000000 < 2 ^ 31) :
    0 < poll_timeout deadline now
      ∧ (poll_timeout deadline now = 1
        ∨ now + milliseconds (poll_timeout deadline now) ≤ deadline) := by
  unfold poll_timeout milliseconds
  dsimp only
  split_ifs with hone
  · exact ⟨by decide, .inl (by decide)⟩
  · rw [Int.bmod_eq_of_le (by omega) (by omega)]
    omega

theorem grace_ne_polling (s s' : Supervised) (i : ℕ) (ms : ℤ) : grace s i ≠ polling s' ms := by
  unfold grace
  split_ifs <;> nofun

/-- What leads to `poll` is a look at the clock. -/
theorem polling_cases {s : Supervised} {ms : ℤ} {xs : List (PosixCall × PosixAnswer)}
    (h : (supervise timeout late).after opening xs = some (polling s ms)) :
    ∃ ys now, xs = ys ++ [(.now, .time now)]
      ∧ (supervise timeout late).after opening ys = some (checking s)
      ∧ now < s.deadline ∧ ms = poll_timeout s.deadline now := by
  rcases List.eq_nil_or_concat xs with rfl | ⟨ys, x, rfl⟩
  · cases h
  · rw [List.concat_eq_append] at h ⊢
    obtain ⟨u, hu, hstep⟩ := Dialogue.after_snoc.1 h
    generalize hv : polling s ms = v at hstep
    cases move_of_step hstep with
    | early hnow =>
      cases hv
      exact ⟨ys, _, rfl, hu, hnow, rfl⟩
    | warned => exact absurd hv.symm (grace_ne_polling _ s 0 ms)
    | slept _ i => exact absurd hv.symm (grace_ne_polling _ s (i + 1) ms)
    | _ => cases hv

end Supervisor

section Polls

open Supervisor

variable {timeout : ℤ}

/-- With a clock that does not run backwards, every call of `poll` waits, and not beyond the
deadline but for the millisecond that it waits in any case. The clock and the deadline are in the
range of `std::int64_t`. -/
def PollsBounded (D : Dialogue Supervisor PosixCall PosixAnswer) : Prop :=
  ∀ xs s ms, D.after opening xs = some (polling s ms) → (account xs).readings.IsChain (· ≤ ·) →
    (∀ now ∈ (account xs).readings, 0 ≤ now) → s.deadline < 2 ^ 63 →
    0 < ms ∧ ∃ now ∈ (account xs).readings.getLast?,
      ms = 1 ∨ now + milliseconds ms ≤ s.deadline

theorem pollsBounded_of_lt {late : Str} (h : timeout < 2 ^ 31) :
    PollsBounded (supervise timeout late) := by
  intro xs s ms hxs hclock _ _
  obtain ⟨ys, now, rfl, hys, -, rfl⟩ := polling_cases hxs
  obtain ⟨start, rest, ⟨w, haccount⟩, hdeadline, -⟩ : Polled timeout (account ys) s :=
    told_after hys
  have hreadings : (account (ys ++ [(.now, .time now)])).readings = start :: (rest ++ [now]) := by
    rw [account_snoc, haccount]
    rfl
  have hstart : start ≤ now := by
    rw [hreadings, List.isChain_iff_pairwise, List.pairwise_cons] at hclock
    exact hclock.1 now (by simp)
  have hshort : (s.deadline - now) / 1000000 < 2 ^ 31 := by
    rw [hdeadline, milliseconds]
    omega
  obtain ⟨hpos, hle⟩ := poll_timeout_of_lt hshort
  refine ⟨hpos, now, ?_, hle⟩
  rw [hreadings, ← List.cons_append, List.getLast?_concat]
  rfl

/-- The calls up to a `poll` with `2 ^ 31` milliseconds to go. -/
def far (timeout : ℤ) : List (PosixCall × PosixAnswer) :=
  [(.pipe, .fds 3 4), (.fork, .pid 5), (.close 4, .zero), (.now, .time 0),
    (.now, .time (milliseconds (timeout - 2 ^ 31)))]

theorem after_far {late : Str} :
    (supervise timeout late).after opening (far timeout)
      = some (polling ⟨3, 5, milliseconds timeout, []⟩ (-2 ^ 31)) := by
  have hearly : ¬ milliseconds timeout ≤ milliseconds (timeout - 2 ^ 31) := by
    unfold milliseconds
    omega
  have hleft : (milliseconds timeout - milliseconds (timeout - 2 ^ 31)) / 1000000 = 2 ^ 31 := by
    unfold milliseconds
    omega
  have hwait : poll_timeout (milliseconds timeout) (milliseconds (timeout - 2 ^ 31)) = -2 ^ 31 := by
    rw [poll_timeout, hleft]
    decide
  rw [far]
  generalize milliseconds (timeout - 2 ^ 31) = now at hearly hwait ⊢
  simp [Dialogue.after, Dialogue.step, supervise, call, resume, PosixAnswer.plain, hearly, hwait]

theorem not_pollsBounded {late : Str} (h : 2 ^ 31 ≤ timeout)
    (hrange : milliseconds timeout < 2 ^ 63) : ¬ PollsBounded (supervise timeout late) := by
  intro hbounded
  have hclock : (account (far timeout)).readings.IsChain (· ≤ ·) := by
    show [0, milliseconds (timeout - 2 ^ 31)].IsChain (· ≤ ·)
    simp only [List.isChain_cons_cons, List.IsChain.singleton, and_true, milliseconds]
    omega
  have hfrom : ∀ now ∈ (account (far timeout)).readings, 0 ≤ now := by
    show ∀ now ∈ [0, milliseconds (timeout - 2 ^ 31)], 0 ≤ now
    simp only [List.forall_mem_cons, milliseconds]
    refine ⟨le_rfl, by omega, List.forall_mem_nil _⟩
  exact absurd (hbounded (far timeout) _ _ after_far hclock hfrom hrange).1 (by decide)

/-- On POSIX the deadline holds `poll` to it only up to `2 ^ 31` milliseconds, and a run that is to
wait forever is none of these: it may hand `poll` a wait without end before the year is over. -/
theorem polls_bounded_iff {timeout : ℤ} (hrange : milliseconds timeout < 2 ^ 63) :
    PollsBounded (PosixPlatform.run timeout) ↔ 0 < timeout ∧ timeout < 2 ^ 31 := by
  unfold PosixPlatform.run PosixPlatform.timeout run_captured
  split_ifs with h
  · exact iff_of_false (not_pollsBounded (by decide) (by decide))
      fun hpos => absurd hpos.1 (not_lt.2 h)
  · refine ⟨fun hbounded => ⟨not_le.1 h, ?_⟩, fun hlt => pollsBounded_of_lt hlt.2⟩
    by_contra hle
    exact not_pollsBounded (not_lt.1 hle) hrange hbounded

/-- Half a minute is bounded, and a month is not. -/
theorem polls_bounded_iff_month :
    PollsBounded (PosixPlatform.run 30000)
      ∧ ¬ PollsBounded (PosixPlatform.run (30 * 24 * 3600 * 1000)) :=
  ⟨(polls_bounded_iff (by decide)).2 (by decide),
    fun h => absurd ((polls_bounded_iff (by decide)).1 h) (by decide)⟩

end Polls

/-! ## The copy in `exec_argv` -/

/-- The same, with the note that is appended once the deadline has passed. -/
def Supervisor.noted (late : Str) : Supervisor → Supervisor
  | terminating s => terminating { s with out := s.out ++ late }
  | asking s i => asking { s with out := s.out ++ late } i
  | napping s i => napping { s with out := s.out ++ late } i
  | killing s => killing { s with out := s.out ++ late }
  | reaping_killed s => reaping_killed { s with out := s.out ++ late }
  | closing fds ⟨status, out, true⟩ => closing fds ⟨status, out ++ late, true⟩
  | s => s

theorem noted_grace (late : Str) (s : Supervised) (i : ℕ) :
    (Supervisor.grace s i).noted late = Supervisor.grace { s with out := s.out ++ late } i := by
  unfold Supervisor.grace
  split_ifs <;> rfl

theorem call_noted (late : Str) (s : Supervisor) : (s.noted late).call = s.call := by
  cases s with
  | closing fds result =>
    obtain ⟨status, out, _ | _⟩ := result
    · rfl
    · cases fds <;> rfl
  | _ => rfl

theorem resume_noted (timeout : ℤ) (late : Str) (s : Supervisor) (a : PosixAnswer) :
    Supervisor.resume timeout late (s.noted late) a
      = (Supervisor.resume timeout [] s a).map (Supervisor.noted late) := by
  cases s with
  | closing fds result =>
    obtain ⟨status, out, _ | _⟩ := result <;> cases fds with
    | nil => rfl
    | cons fd fds =>
      simp only [Supervisor.noted, Supervisor.resume]
      split_ifs <;> rfl
  | checking s =>
    cases a <;> simp only [Supervisor.noted, Supervisor.resume, Option.map_none]
    rw [Option.map_some]
    split_ifs
    · simp [Supervisor.noted]
    · rfl
  | polling s ms =>
    cases a <;> simp only [Supervisor.noted, Supervisor.resume, Option.map_none, Option.map_some]
    split_ifs <;> rfl
  | terminating s =>
    simp only [Supervisor.noted, Supervisor.resume]
    split_ifs
    · rw [Option.map_some, noted_grace]
    · rfl
  | napping s i =>
    simp only [Supervisor.noted, Supervisor.resume]
    split_ifs
    · rw [Option.map_some, noted_grace]
    · rfl
  | parting r w pid =>
    simp only [Supervisor.noted, Supervisor.resume]
    split_ifs <;> rfl
  | killing s =>
    simp only [Supervisor.noted, Supervisor.resume]
    split_ifs <;> rfl
  | reading s =>
    cases a with
    | bytes chunk =>
      simp only [Supervisor.noted, Supervisor.resume]
      split_ifs <;> rfl
    | _ => rfl
  | _ => cases a <;> rfl

/-- `exec_argv` makes the calls of `run_captured` with its timeout, and returns what that returns,
with a note on a deadline that has passed. -/
theorem exec_argv_after (xs : List (PosixCall × PosixAnswer)) :
    BasicContext.exec_argv.after Supervisor.opening xs
      = ((run_captured kDefaultTimeout).after Supervisor.opening xs).map (Supervisor.noted
        (lit "\n[praxis] tool execution exceeded the 30s deadline; terminating child\n")) :=
  Dialogue.after_map (D := run_captured kDefaultTimeout) (E := BasicContext.exec_argv)
    (call_noted _) (resume_noted kDefaultTimeout _) Supervisor.opening xs

end Praxis
