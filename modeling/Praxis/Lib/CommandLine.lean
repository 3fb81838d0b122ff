import Mathlib.Data.List.Induction

/-!
# Arguments of a command line

How a Windows program cuts its command line into arguments. The program's name comes first, up to a
blank outside of quotes. In what follows, 2n backslashes before a quote are n backslashes and the
quote begins or ends a quoted part, 2n + 1 are n backslashes and the quote itself, two quotes in a
quoted part are one quote, and other backslashes are themselves.
-/

namespace CommandLine

structure Grammar (α : Type) where
  mark : α
  slash : α
  blank : α → Bool
  mark_ne_slash : mark ≠ slash
  blank_mark : blank mark = false
  blank_slash : blank slash = false

variable {α : Type}

section Blank

variable {G : Grammar α} {b : α}

theorem ne_mark_of_blank (hb : G.blank b = true) : b ≠ G.mark := by
  rintro rfl
  rw [G.blank_mark] at hb
  cases hb

theorem ne_slash_of_blank (hb : G.blank b = true) : b ≠ G.slash := by
  rintro rfl
  rw [G.blank_slash] at hb
  cases hb

end Blank

/-- `closed` is where a quote has just ended a quoted part, unless one more follows. -/
inductive Mode
  | outside
  | inside
  | closed
  deriving DecidableEq

def Mode.settled : Mode → Mode
  | .inside => .inside
  | _ => .outside

/-- The arguments that are complete, the current one and the backslashes that end what has been
read. -/
structure State (α : Type) where
  done : List (List α)
  word : Option (List α)
  slashes : ℕ
  mode : Mode

variable [DecidableEq α] (G : Grammar α)

namespace State

def add (st : State α) (s : List α) : Option (List α) := some (st.word.getD [] ++ s)

/-- The current argument, with backslashes that no quote follows. -/
def flush (st : State α) : Option (List α) :=
  if st.slashes = 0 then st.word else st.add (List.replicate st.slashes G.slash)

def all (st : State α) : List (List α) := st.done ++ (st.flush G).toList

def step (st : State α) (c : α) : State α :=
  if c = G.slash then
    { st with word := st.add [], slashes := st.slashes + 1, mode := st.mode.settled }
  else if c = G.mark then
    let kept := List.replicate (st.slashes / 2) G.slash
    if st.slashes % 2 = 1 then
      { st with word := st.add (kept ++ [c]), slashes := 0, mode := st.mode.settled }
    else
      match st.mode with
      | .outside => { st with word := st.add kept, slashes := 0, mode := .inside }
      | .inside => { st with word := st.add kept, slashes := 0, mode := .closed }
      | .closed => { st with word := st.add (kept ++ [c]), slashes := 0, mode := .inside }
  else if G.blank c ∧ st.mode ≠ .inside then ⟨st.all G, none, 0, .outside⟩
  else
    { st with
      word := st.add (List.replicate st.slashes G.slash ++ [c]), slashes := 0,
      mode := st.mode.settled }

end State

/-- The arguments after the program's name. -/
def arguments (s : List α) : List (List α) :=
  (s.foldl (State.step G) ⟨[], none, 0, .outside⟩).all G

/-- The program's name and what follows the blank after it; `quoted` is between two quotes. -/
def program : Bool → List α → List α × List α
  | _, [] => ([], [])
  | quoted, c :: s =>
    if c = G.mark then program (!quoted) s
    else if G.blank c ∧ quoted = false then ([], s)
    else (c :: (program quoted s).1, (program quoted s).2)

def argv (s : List α) : List (List α) :=
  (program G false s).1 :: arguments G (program G false s).2

variable {G}

section Plain

open State

/-- Characters that no rule is about. -/
def Plain (G : Grammar α) (s : List α) : Prop :=
  ∀ c ∈ s, c ≠ G.mark ∧ c ≠ G.slash ∧ G.blank c = false

variable {b : α} {s : List α} {ds : List (List α)} {st : State α}

theorem step_blank (hb : G.blank b = true) (h : st.mode ≠ .inside) :
    st.step G b = ⟨st.all G, none, 0, .outside⟩ := by
  rw [step, if_neg (ne_slash_of_blank hb), if_neg (ne_mark_of_blank hb), if_pos ⟨hb, h⟩]

theorem step_blank_inside (hb : G.blank b = true) (h : st.mode = .inside) :
    st.step G b
      = ⟨st.done, some (st.word.getD [] ++ (List.replicate st.slashes G.slash ++ [b])), 0,
          .inside⟩ := by
  rw [step, if_neg (ne_slash_of_blank hb), if_neg (ne_mark_of_blank hb), if_neg (by simp [h]), h]
  rfl

theorem step_mark_inside {o : Option (List α)} : step G ⟨ds, o, 0, .inside⟩ G.mark
    = ⟨ds, some (o.getD []), 0, .closed⟩ := by
  simp [step, G.mark_ne_slash, add]

theorem step_mark_outside {o : Option (List α)} : step G ⟨ds, o, 0, .outside⟩ G.mark
    = ⟨ds, some (o.getD []), 0, .inside⟩ := by
  simp [step, G.mark_ne_slash, add]

theorem run_inside (hs : Plain G s) : ∀ {w : List α},
    s.foldl (step G) ⟨ds, some w, 0, .inside⟩ = ⟨ds, some (w ++ s), 0, .inside⟩ := by
  induction s with
  | nil => simp
  | cons c s ih =>
    intro w
    obtain ⟨⟨hmark, hslash, -⟩, hs⟩ := List.forall_mem_cons.1 hs
    have hstep : step G ⟨ds, some w, 0, .inside⟩ c = ⟨ds, some (w ++ [c]), 0, .inside⟩ := by
      simp [step, hmark, hslash, add, Mode.settled]
    rw [List.foldl_cons, hstep, ih hs, List.append_assoc, List.singleton_append]

theorem run_outside (hs : Plain G s) (hne : s ≠ []) : ∀ {o : Option (List α)} {mode : Mode},
    mode ≠ .inside →
      s.foldl (step G) ⟨ds, o, 0, mode⟩ = ⟨ds, some (o.getD [] ++ s), 0, .outside⟩ := by
  induction s with
  | nil => exact absurd rfl hne
  | cons c s ih =>
    intro o mode hmode
    obtain ⟨⟨hmark, hslash, hblank⟩, hs⟩ := List.forall_mem_cons.1 hs
    have hsettled : mode.settled = .outside := by
      cases mode with
      | inside => exact absurd rfl hmode
      | outside => rfl
      | closed => rfl
    have hstep : step G ⟨ds, o, 0, mode⟩ c = ⟨ds, some (o.getD [] ++ [c]), 0, .outside⟩ := by
      simp [step, hmark, hslash, hblank, add, hsettled]
    rw [List.foldl_cons, hstep]
    rcases eq_or_ne s [] with rfl | hne
    · rfl
    · rw [ih hs hne (by simp), Option.getD_some, List.append_assoc, List.singleton_append]

end Plain

/-! ## Arguments between quotes

Arguments that are put between quotes as they are, with a bare word behind them, are never read
back: either the bare word is one argument more, or it is swallowed by an open quote, and then the
last argument would have to end in it. -/

section Naive

open State

variable {b : α} {m : List α} {st : State α} {ds : List (List α)}

/-- An argument between quotes, after a blank. -/
def between (G : Grammar α) (b : α) (a : List α) : List α := b :: G.mark :: (a ++ [G.mark])

def run (G : Grammar α) (b : α) (as : List (List α)) : State α :=
  (as.flatMap (between G b)).foldl (step G) ⟨[], none, 0, .outside⟩

theorem run_snoc (as : List (List α)) (a : List α) :
    run G b (as ++ [a]) = step G ((b :: G.mark :: a).foldl (step G) (run G b as)) G.mark := by
  rw [run, run, List.flatMap_append, List.foldl_append, List.flatMap_singleton, between,
    ← List.cons_append, ← List.cons_append, List.foldl_append, List.foldl_cons, List.foldl_nil]

/-- After the quote that ends an argument no backslashes are left over, and the argument has been
begun. -/
theorem run_slashes (as : List (List α)) : (run G b as).slashes = 0
    ∧ ((run G b as).mode = .inside → ∃ w, (run G b as).word = some w) := by
  induction as using List.reverseRecOn with
  | nil => exact ⟨rfl, nofun⟩
  | append_singleton as a _ =>
    rw [run_snoc]
    generalize List.foldl _ _ _ = st
    unfold step
    rw [if_neg G.mark_ne_slash, if_pos rfl]
    dsimp only
    split_ifs
    · exact ⟨rfl, fun _ => ⟨_, rfl⟩⟩
    · split <;> exact ⟨rfl, fun _ => ⟨_, rfl⟩⟩

/-- The argument that is read in an open quote, with the backslashes that were left over. -/
def open_ (G : Grammar α) (st : State α) (s : List α) : Option (List α) :=
  some (st.word.getD [] ++ (List.replicate st.slashes G.slash ++ s))

section Bare

variable (hb : G.blank b = true) (hm : Plain G m) (hne : m ≠ [])
include hb hm

/-- An open quote swallows the word. -/
theorem bare_inside (h : st.mode = .inside) :
    (b :: m).foldl (step G) st = ⟨st.done, open_ G st (b :: m), 0, .inside⟩ := by
  rw [List.foldl_cons, step_blank_inside hb h, run_inside hm]
  simp [open_]

/-- The word behind a quote, after a blank that is outside of quotes. -/
theorem quoted_outside (h : st.mode ≠ .inside) :
    (b :: G.mark :: m).foldl (step G) st = ⟨st.all G, some m, 0, .inside⟩ := by
  rw [List.foldl_cons, List.foldl_cons, step_blank hb h, step_mark_outside, run_inside hm]
  rfl

include hne

/-- After a blank outside of quotes the word is an argument of its own. -/
theorem bare_outside (h : st.mode ≠ .inside) :
    (b :: m).foldl (step G) st = ⟨st.all G, some m, 0, .outside⟩ := by
  rw [List.foldl_cons, step_blank hb h, run_outside hm hne (by simp)]
  rfl

/-- Within an open quote the quote before the word ends it. -/
theorem quoted_inside (h : st.mode = .inside) :
    (b :: G.mark :: m).foldl (step G) st = ⟨st.done, open_ G st (b :: m), 0, .outside⟩ := by
  rw [List.foldl_cons, List.foldl_cons, step_blank_inside hb h, step_mark_inside,
    run_outside hm hne (by simp)]
  simp [open_]

/-- Outside of quotes the bare word is one argument more. -/
theorem all_append_ne (as : List (List α)) (hmode : (run G b as).mode ≠ .inside) :
    (run G b as).all G ++ [m] ≠ as := by
  induction as using List.reverseRecOn with
  | nil => simp
  | append_singleton as a ih =>
    intro h
    obtain ⟨hall, ha⟩ := List.append_inj' h rfl
    obtain rfl := (List.cons.inj ha).1
    rw [run_snoc] at hmode hall
    by_cases hin : (run G b as).mode = .inside
    · rw [quoted_inside hb hm hne hin, step_mark_outside] at hmode
      exact hmode rfl
    · rw [quoted_outside hb hm hin, step_mark_inside] at hall
      exact ih hin hall

/-- In an open quote the last argument would have to end in the blank and the word. -/
theorem done_append_ne (as : List (List α)) (hmode : (run G b as).mode = .inside) {w : List α}
    (hword : (run G b as).word = some w) : (run G b as).done ++ [w ++ b :: m] ≠ as := by
  induction as using List.reverseRecOn generalizing w with
  | nil => simp
  | append_singleton as a ih =>
    intro h
    obtain ⟨hdone, ha⟩ := List.append_inj' h rfl
    obtain rfl := (List.cons.inj ha).1
    rw [run_snoc, ← List.cons_append, ← List.cons_append, List.foldl_append] at hmode hdone hword
    set st := (b :: G.mark :: w).foldl (step G) (run G b as) with hst
    by_cases hin : st.mode = .inside
    · -- the quote behind the word would have ended the argument
      rw [bare_inside hb hm hin, open_, step_mark_inside] at hmode
      cases hmode
    -- so the argument is the word, a blank and the word
    rw [bare_outside hb hm hne hin, step_mark_outside] at hword hdone
    obtain rfl : m = w := Option.some.inj hword
    by_cases hin' : (run G b as).mode = .inside
    · obtain ⟨hslashes, hsome⟩ := run_slashes (G := G) (b := b) as
      obtain ⟨w', hw'⟩ := hsome hin'
      rw [hst, quoted_inside hb hm hne hin'] at hdone
      refine ih hin' hw' (Eq.trans ?_ hdone)
      simp [all, flush, open_, hw', hslashes]
    · rw [hst, quoted_outside hb hm hin'] at hin
      exact hin rfl

/-- What is read back is never what was written. -/
theorem arguments_ne (as : List (List α)) :
    arguments G (as.flatMap (between G b) ++ b :: m) ≠ as := by
  rw [arguments, List.foldl_append]
  by_cases hin : (run G b as).mode = .inside
  · obtain ⟨hslashes, hsome⟩ := run_slashes (G := G) (b := b) as
    obtain ⟨w, hw⟩ := hsome hin
    have hne' := done_append_ne hb hm hne as hin hw
    rw [← run, bare_inside hb hm hin]
    simpa [all, flush, open_, hw, hslashes] using hne'
  · rw [← run, bare_outside hb hm hne hin]
    exact all_append_ne hb hm hne as hin

end Bare

end Naive

section Program

variable {b : α}

theorem mark_notMem_program : ∀ (s : List α) (quoted : Bool), G.mark ∉ (program G quoted s).1
  | [], _ => by simp [program]
  | c :: s, quoted => by
    rw [program]
    split_ifs with hmark hblank
    · exact mark_notMem_program s _
    · simp
    · rw [List.mem_cons, not_or]
      exact ⟨Ne.symm hmark, mark_notMem_program s quoted⟩

/-- A name that is read back as it is ends at the blank behind it. -/
theorem program_eq (hb : G.blank b = true) {cmd s : List α}
    (h : (program G false (cmd ++ b :: s)).1 = cmd) :
    program G false (cmd ++ b :: s) = (cmd, s) := by
  have hmark := mark_notMem_program (G := G) (cmd ++ b :: s) false
  rw [h] at hmark
  induction cmd with
  | nil => rw [List.nil_append, program, if_neg (ne_mark_of_blank hb), if_pos ⟨hb, rfl⟩]
  | cons c cmd ih =>
    rw [List.mem_cons, not_or] at hmark
    obtain ⟨hc, hmark⟩ := hmark
    rw [List.cons_append, program, if_neg (Ne.symm hc)] at h ⊢
    by_cases hblank : G.blank c = true
    · rw [if_pos ⟨hblank, rfl⟩] at h
      cases h
    · rw [if_neg (by simp [hblank])] at h ⊢
      rw [ih (List.cons.inj h).2 hmark]

theorem arguments_blank (hb : G.blank b = true) (s : List α) :
    arguments G (b :: s) = arguments G s := by
  rw [arguments, List.foldl_cons, step_blank hb (by simp)]
  rfl

/-- With a bare word behind them, arguments between quotes are not what the program is given. -/
theorem argv_ne (hb : G.blank b = true) {m : List α} (hm : Plain G m) (hne : m ≠ [])
    (cmd : List α) (as : List (List α)) :
    argv G (cmd ++ (as.flatMap (between G b) ++ b :: m)) ≠ cmd :: as := by
  intro h
  have harguments := arguments_ne hb hm hne as
  obtain ⟨t, ht⟩ : ∃ t, as.flatMap (between G b) ++ b :: m = b :: t := by
    cases as with
    | nil => exact ⟨m, rfl⟩
    | cons a as => exact ⟨_, rfl⟩
  rw [ht] at h harguments
  obtain ⟨hcmd, has⟩ := List.cons.inj h
  rw [program_eq hb hcmd] at has
  exact harguments ((arguments_blank hb t).trans has)

end Program

end CommandLine
