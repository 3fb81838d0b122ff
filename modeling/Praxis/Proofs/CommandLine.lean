import Praxis.FrontEnd

/-!
# What the command line means

A command line that `parse_cli` accepts is a sequence of items, in any order, and perhaps an option
at the end whose value is missing; the options are those that the items set, one after the other
(`parse_cli_meaning`).
-/

namespace Praxis

/-- The options whose value is taken as it is. -/
inductive TextFlag
  | provider | model | api_key | api_base | web_host | web_user | web_pass

namespace TextFlag

def name : TextFlag → Str
  | provider => "--provider"
  | model => "--model"
  | api_key => "--api-key"
  | api_base => "--api-base"
  | web_host => "--web-host"
  | web_user => "--web-user"
  | web_pass => "--web-pass"

def set (value : Str) (opts : CliSettings) : TextFlag → CliSettings
  | provider => { opts with provider_name := value }
  | model => { opts with model := value }
  | api_key => { opts with api_key := value }
  | api_base => { opts with api_base := value }
  | web_host => { opts with web_host := value }
  | web_user => { opts with web_user := value }
  | web_pass => { opts with web_pass := value }

end TextFlag

/-- The options whose value is a number. -/
inductive NumberFlag
  | budget | port

namespace NumberFlag

def name : NumberFlag → Str
  | budget => "--budget"
  | port => "--port"

def set (n : ℤ) (opts : CliSettings) : NumberFlag → CliSettings
  | budget => { opts with budget_turns := UInt32.ofInt n }
  | port => { opts with web_port := n }

end NumberFlag

/-- An item of a command line. -/
inductive CliItem
  | text (flag : TextFlag) (value : Str)
  | number (flag : NumberFlag) (value : Str) (n : ℤ)
  | web
  | verbose (arg : Str)
  | word (arg : Str)
  /-- An argument that is no option but looks like one. -/
  | skipped (arg : Str)

/-- The options that take the next argument as their value. -/
def TakesValue (arg : Str) : Prop :=
  (∃ flag : TextFlag, arg = flag.name) ∨ ∃ flag : NumberFlag, arg = flag.name

namespace CliItem

/-- The arguments that an item consists of. -/
def args : CliItem → List Str
  | text flag value => [flag.name, value]
  | number flag value _ => [flag.name, value]
  | web => ["--web"]
  | verbose arg | word arg | skipped arg => [arg]

/-- What an item sets. -/
def apply (opts : CliSettings) : CliItem → CliSettings
  | text flag value => flag.set value opts
  | number flag _ n => flag.set n opts
  | web => { opts with use_web := true }
  | verbose _ => { opts with verbose := true }
  | word arg =>
    { opts with task := (if opts.task.isEmpty then [] else opts.task ++ lit " ") ++ arg }
  | skipped _ => opts

def WellFormed : CliItem → Prop
  | text _ _ | web => True
  | number _ value n => stoi value = .ok n
  | verbose arg => arg = lit "--verbose" ∨ arg = lit "-v"
  | word arg => arg.head? ≠ some 45
  | skipped arg => arg.head? = some 45 ∧ ¬ TakesValue arg ∧ arg ≠ lit "--web"
      ∧ ¬ (arg = lit "--verbose" ∨ arg = lit "-v") ∧ ¬ (arg = lit "--help" ∨ arg = lit "-h")

end CliItem

/-- Arguments that are items, and then the rest. -/
def Reads (args : List Str) (items : List CliItem) (rest : List Str) : Prop :=
  (∀ item ∈ items, item.WellFormed) ∧ args = items.flatMap CliItem.args ++ rest

/-- Nothing, or an option whose value is missing. -/
def Trailing (rest : List Str) : Prop := rest = [] ∨ ∃ arg, TakesValue arg ∧ rest = [arg]

def AsksHelp (rest : List Str) : Prop :=
  ∃ arg args, (arg = lit "--help" ∨ arg = lit "-h") ∧ rest = arg :: args

/-- A number option with a value that is no number. -/
def BadNumber (error : UrlError) (rest : List Str) : Prop :=
  ∃ flag value args, stoi value = .error error ∧ rest = NumberFlag.name flag :: value :: args

theorem valued_text (flag : TextFlag) (value : Str) (opts : CliSettings) :
    parse_cli.valued flag.name value opts = some (pure (flag.set value opts)) := by
  cases flag <;> rfl

theorem valued_number (flag : NumberFlag) (value : Str) (opts : CliSettings) :
    parse_cli.valued flag.name value opts
      = some (CliExit.stoi value >>= fun n => pure (flag.set n opts)) := by
  cases flag <;> rfl

theorem valued_none {arg : Str} (h : ¬ TakesValue arg) (value : Str) (opts : CliSettings) :
    parse_cli.valued arg value opts = none := by
  have htext : ∀ flag : TextFlag, arg ≠ flag.name := fun flag harg => h (.inl ⟨flag, harg⟩)
  have hnumber : ∀ flag : NumberFlag, arg ≠ flag.name := fun flag harg => h (.inr ⟨flag, harg⟩)
  rw [parse_cli.valued,
    if_neg (show arg ≠ lit "--provider" from htext .provider),
    if_neg (show arg ≠ lit "--model" from htext .model),
    if_neg (show arg ≠ lit "--api-key" from htext .api_key),
    if_neg (show arg ≠ lit "--api-base" from htext .api_base),
    if_neg (show arg ≠ lit "--budget" from hnumber .budget),
    if_neg (show arg ≠ lit "--port" from hnumber .port),
    if_neg (show arg ≠ lit "--web-host" from htext .web_host),
    if_neg (show arg ≠ lit "--web-user" from htext .web_user),
    if_neg (show arg ≠ lit "--web-pass" from htext .web_pass)]

theorem head?_of_takesValue {arg : Str} (h : TakesValue arg) : arg.head? = some 45 := by
  obtain ⟨flag, rfl⟩ | ⟨flag, rfl⟩ := h <;> cases flag <;> rfl

/-- What stands alone is read before the rest, whatever that is. -/
theorem loop_alone {arg : Str} (h : ¬ TakesValue arg) (args : List Str) (opts : CliSettings) :
    parse_cli.loop (arg :: args) opts
      = parse_cli.alone arg opts >>= fun opts => parse_cli.loop args opts := by
  cases args with
  | nil =>
    rw [parse_cli.loop]
    rcases parse_cli.alone arg opts with e | opts' <;> rfl
  | cons value args =>
    rw [parse_cli.loop, valued_none h]

theorem loop_text (flag : TextFlag) (value : Str) (args : List Str) (opts : CliSettings) :
    parse_cli.loop (flag.name :: value :: args) opts
      = parse_cli.loop args (flag.set value opts) := by
  rw [parse_cli.loop, valued_text]
  rfl

theorem loop_number (flag : NumberFlag) (value : Str) (args : List Str) (opts : CliSettings) :
    parse_cli.loop (flag.name :: value :: args) opts
      = CliExit.stoi value >>= fun n => parse_cli.loop args (flag.set n opts) := by
  rw [parse_cli.loop, valued_number]
  rcases CliExit.stoi value with e | n <;> rfl

/-! ## One item -/

theorem not_takesValue_of_head? {arg : Str} (h : arg.head? ≠ some 45) : ¬ TakesValue arg :=
  fun htakes => h (head?_of_takesValue htakes)

theorem alone_web (opts : CliSettings) :
    parse_cli.alone (lit "--web") opts = .ok { opts with use_web := true } := rfl

theorem alone_verbose {arg : Str} (h : arg = lit "--verbose" ∨ arg = lit "-v")
    (opts : CliSettings) : parse_cli.alone arg opts = .ok { opts with verbose := true } := by
  obtain rfl | rfl := h <;> rfl

theorem alone_help {arg : Str} (h : arg = lit "--help" ∨ arg = lit "-h") (opts : CliSettings) :
    parse_cli.alone arg opts = .error .help := by
  obtain rfl | rfl := h <;> rfl

theorem alone_word {arg : Str} (h : arg.head? ≠ some 45) (opts : CliSettings) :
    parse_cli.alone arg opts = .ok (CliItem.apply opts (.word arg)) := by
  have hweb : arg ≠ lit "--web" := by rintro rfl; exact h rfl
  have hverbose : ¬ (arg = lit "--verbose" ∨ arg = lit "-v") := by
    rintro (rfl | rfl) <;> exact h rfl
  have hhelp : ¬ (arg = lit "--help" ∨ arg = lit "-h") := by rintro (rfl | rfl) <;> exact h rfl
  rw [parse_cli.alone, if_neg hweb, if_neg hverbose, if_neg hhelp, if_pos h]
  rfl

theorem alone_skipped {arg : Str} (h : (CliItem.skipped arg).WellFormed) (opts : CliSettings) :
    parse_cli.alone arg opts = .ok opts := by
  obtain ⟨hdash, -, hweb, hverbose, hhelp⟩ := h
  rw [parse_cli.alone, if_neg hweb, if_neg hverbose, if_neg hhelp, if_neg (not_not_intro hdash)]
  rfl

theorem not_takesValue_web : ¬ TakesValue (lit "--web") := by
  rintro (⟨flag, h⟩ | ⟨flag, h⟩) <;> cases flag <;> revert h <;> decide

theorem not_takesValue_verbose {arg : Str} (h : arg = lit "--verbose" ∨ arg = lit "-v") :
    ¬ TakesValue arg := by
  obtain rfl | rfl := h <;> rintro (⟨flag, h⟩ | ⟨flag, h⟩) <;> cases flag <;> revert h <;> decide

theorem not_takesValue_help {arg : Str} (h : arg = lit "--help" ∨ arg = lit "-h") :
    ¬ TakesValue arg := by
  obtain rfl | rfl := h <;> rintro (⟨flag, h⟩ | ⟨flag, h⟩) <;> cases flag <;> revert h <;> decide

/-- The loop reads an item, whatever follows it. -/
theorem loop_item {item : CliItem} (h : item.WellFormed) (args : List Str) (opts : CliSettings) :
    parse_cli.loop (item.args ++ args) opts = parse_cli.loop args (item.apply opts) := by
  cases item with
  | text flag value => exact loop_text flag value args opts
  | number flag value n =>
    have hstoi : CliExit.stoi value = .ok n := by rw [CliExit.stoi, h]; rfl
    exact (loop_number flag value args opts).trans (by rw [hstoi]; rfl)
  | web => exact (loop_alone not_takesValue_web args opts).trans (by rw [alone_web]; rfl)
  | verbose arg =>
    exact (loop_alone (not_takesValue_verbose h) args opts).trans (by rw [alone_verbose h]; rfl)
  | word arg =>
    exact (loop_alone (not_takesValue_of_head? h) args opts).trans (by rw [alone_word h]; rfl)
  | skipped arg => exact (loop_alone h.2.1 args opts).trans (by rw [alone_skipped h]; rfl)

/-- Arguments begin with an item, or there is no reading on. -/
theorem item_or_stop (args : List Str) :
    (∃ item rest, item.WellFormed ∧ args = CliItem.args item ++ rest)
      ∨ Trailing args ∨ AsksHelp args ∨ ∃ e, BadNumber e args := by
  rcases args with _ | ⟨arg, args⟩
  · exact .inr (.inl (.inl rfl))
  by_cases htakes : TakesValue arg
  · rcases args with _ | ⟨value, args⟩
    · exact .inr (.inl (.inr ⟨arg, htakes, rfl⟩))
    obtain ⟨flag, rfl⟩ | ⟨flag, rfl⟩ := htakes
    · exact .inl ⟨.text flag value, args, trivial, rfl⟩
    · rcases hstoi : stoi value with e | n
      · exact .inr (.inr (.inr ⟨e, flag, value, args, hstoi, rfl⟩))
      · exact .inl ⟨.number flag value n, args, hstoi, rfl⟩
  by_cases hweb : arg = lit "--web"
  · exact .inl ⟨.web, args, trivial, by rw [hweb]; rfl⟩
  by_cases hverbose : arg = lit "--verbose" ∨ arg = lit "-v"
  · exact .inl ⟨.verbose arg, args, hverbose, rfl⟩
  by_cases hhelp : arg = lit "--help" ∨ arg = lit "-h"
  · exact .inr (.inr (.inl ⟨arg, args, hhelp, rfl⟩))
  by_cases hdash : arg.head? = some 45
  · exact .inl ⟨.skipped arg, args, ⟨hdash, htakes, hweb, hverbose, hhelp⟩, rfl⟩
  · exact .inl ⟨.word arg, args, hdash, rfl⟩

/-! ## A whole command line -/

theorem length_args_pos (item : CliItem) : 0 < item.args.length := by
  cases item <;> exact Nat.succ_pos _

/-- The loop sets what the items say and goes on with the rest. -/
theorem loop_reads {args : List Str} {items : List CliItem} {rest : List Str}
    (h : Reads args items rest) (opts : CliSettings) :
    parse_cli.loop args opts = parse_cli.loop rest (items.foldl CliItem.apply opts) := by
  obtain ⟨hwell, rfl⟩ := h
  induction items generalizing opts with
  | nil => rfl
  | cons item items ih =>
    rw [List.flatMap_cons, List.append_assoc, loop_item (hwell item (List.mem_cons_self ..)),
      ih _ fun i hi => hwell i (List.mem_cons_of_mem _ hi)]
    rfl

/-- Every argument is read, up to where the loop has no next item. -/
theorem exists_reads (args : List Str) :
    ∃ items rest, Reads args items rest
      ∧ (Trailing rest ∨ AsksHelp rest ∨ ∃ e, BadNumber e rest) := by
  induction hn : args.length using Nat.strong_induction_on generalizing args with
  | _ n ih =>
    obtain ⟨item, rest, hwell, rfl⟩ | hstop := item_or_stop args
    · have hlt : rest.length < n := by
        have := length_args_pos item
        rw [List.length_append] at hn
        omega
      obtain ⟨items, rest', ⟨hwells, rfl⟩, hstop⟩ := ih _ hlt rest rfl
      refine ⟨item :: items, rest', ⟨?_, ?_⟩, hstop⟩
      · rintro i (_ | ⟨_, hi⟩)
        · exact hwell
        · exact hwells i hi
      · rw [List.flatMap_cons, List.append_assoc]
    · exact ⟨[], args, ⟨by simp, rfl⟩, hstop⟩

theorem loop_trailing {rest : List Str} (h : Trailing rest) (opts : CliSettings) :
    parse_cli.loop rest opts = .ok opts := by
  obtain rfl | ⟨arg, ⟨flag, rfl⟩ | ⟨flag, rfl⟩, rfl⟩ := h
  · rfl
  all_goals cases flag <;> rfl

theorem loop_asksHelp {rest : List Str} (h : AsksHelp rest) (opts : CliSettings) :
    parse_cli.loop rest opts = .error .help := by
  obtain ⟨arg, args, hhelp, rfl⟩ := h
  rw [loop_alone (not_takesValue_help hhelp), alone_help hhelp]
  rfl

theorem loop_badNumber {e : UrlError} {rest : List Str} (h : BadNumber e rest)
    (opts : CliSettings) : parse_cli.loop rest opts = .error (.thrown e) := by
  obtain ⟨flag, value, args, hstoi, rfl⟩ := h
  rw [loop_number, CliExit.stoi, hstoi]
  rfl

/-- A command line is accepted when it is a sequence of items, perhaps with an option at the end
whose value is missing; the usage is asked for, or a number is bad, at the first place where that
sequence ends otherwise. -/
theorem parse_cli_meaning (argv : List Str) :
    (∀ opts, parse_cli argv = .ok opts ↔ ∃ items rest, Reads argv.tail items rest ∧ Trailing rest
      ∧ opts = items.foldl CliItem.apply {})
    ∧ (parse_cli argv = .error .help ↔ ∃ items rest, Reads argv.tail items rest ∧ AsksHelp rest)
    ∧ ∀ e, parse_cli argv = .error (.thrown e) ↔
      ∃ items rest, Reads argv.tail items rest ∧ BadNumber e rest := by
  have hok : ∀ {items rest}, Reads argv.tail items rest → Trailing rest →
      parse_cli argv = .ok (items.foldl CliItem.apply {}) :=
    fun hreads h => (loop_reads hreads {}).trans (loop_trailing h _)
  have hhelp : ∀ {items rest}, Reads argv.tail items rest → AsksHelp rest →
      parse_cli argv = .error .help :=
    fun hreads h => (loop_reads hreads {}).trans (loop_asksHelp h _)
  have hbad : ∀ {items rest e}, Reads argv.tail items rest → BadNumber e rest →
      parse_cli argv = .error (.thrown e) :=
    fun hreads h => (loop_reads hreads {}).trans (loop_badNumber h _)
  obtain ⟨items, rest, hreads, hstop⟩ := exists_reads argv.tail
  refine ⟨fun opts => ⟨fun h => ?_, ?_⟩, ⟨fun h => ?_, ?_⟩, fun e => ⟨fun h => ?_, ?_⟩⟩
  · obtain htrail | hask | ⟨e, hnum⟩ := hstop
    · exact ⟨items, rest, hreads, htrail, Except.ok.inj (h.symm.trans (hok hreads htrail))⟩
    · cases h.symm.trans (hhelp hreads hask)
    · cases h.symm.trans (hbad hreads hnum)
  · rintro ⟨items, rest, hreads, htrail, rfl⟩
    exact hok hreads htrail
  · obtain htrail | hask | ⟨e, hnum⟩ := hstop
    · cases h.symm.trans (hok hreads htrail)
    · exact ⟨items, rest, hreads, hask⟩
    · cases h.symm.trans (hbad hreads hnum)
  · rintro ⟨items, rest, hreads, hask⟩
    exact hhelp hreads hask
  · obtain htrail | hask | ⟨e', hnum⟩ := hstop
    · cases h.symm.trans (hok hreads htrail)
    · cases h.symm.trans (hhelp hreads hask)
    · cases h.symm.trans (hbad hreads hnum)
      exact ⟨items, rest, hreads, hnum⟩
  · rintro ⟨items, rest, hreads, hnum⟩
    exact hbad hreads hnum

end Praxis
