import Praxis.Proofs.FactLog

/-!
# A fact log that was cut

A crash may leave any prefix of the file. A store on it reads the torn line as a fact if there is a
tab in it, and the next fact that is written goes on in that line and is lost (`crash_iff`).
-/

namespace Praxis

namespace FactFile

open FactStore

variable {path : Str}

/-! ## A cut in the file -/

/-- The facts that appends to a new file write to it. -/
def written (facts : List (Str × Str)) : List (Str × Str) := newIn [] facts

/-- What a cut of the file after `k` bytes leaves whole, as facts, and of the line it is in. -/
def whole (facts : List (Str × Str)) (k : ℕ) : List (Str × Str) :=
  (written facts).take (Text.cut ((written facts).map lineOf) k).1.length

def torn (facts : List (Str × Str)) (k : ℕ) : Str := (Text.cut ((written facts).map lineOf) k).2

/-- What can be read from the file after the cut. -/
def recovered (facts : List (Str × Str)) (k : ℕ) : List (Str × Str) :=
  whole facts k ++ (readLine (torn facts k)).toList

/-- A store on what is left of the file. -/
def crashed (path : Str) (file : Option Str) (facts : List (Str × Str)) (k : ℕ) : FactFile :=
  new path (some ((((new path file true).appendAll facts).file.getD []).take k)) true

/-- After a cut only appended facts are loaded, and what is appended then is there after the next
reload. -/
structure CrashSafe (path : Str) (file : Option Str) (facts : List (Str × Str)) (k : ℕ)
    (later : List (Str × Str)) : Prop where
  loaded : ∀ id fact, (crashed path file facts k).get id = some fact →
    (fact.type, fact.content) ∈ facts
  kept : ∀ x ∈ later,
    (((crashed path file facts k).appendAll later).reopen path).get (digest x) = some (factOf x)

/-- What is read from a torn line was appended, and each later fact either is what the id finds in
the file or is new, with an id of its own, to a file that ends in a whole line. -/
structure CutClean (facts : List (Str × Str)) (k : ℕ) (later : List (Str × Str)) : Prop where
  torn_mem : ∀ x, readLine (torn facts k) = some x → x ∈ facts
  later_eq : ∀ x ∈ later, ∀ y, lastWith (digest x) (recovered facts k) = some y → y = x
  later_new : ∀ x ∈ later, lastWith (digest x) (recovered facts k) = none →
    torn facts k = [] ∧ ∀ y ∈ later, digest y = digest x → y = x

variable {file : Option Str} {facts later : List (Str × Str)} {k : ℕ}

theorem map_whole (facts : List (Str × Str)) (k : ℕ) :
    (whole facts k).map lineOf = (Text.cut ((written facts).map lineOf) k).1 := by
  rw [whole, List.map_take]
  exact (List.prefix_iff_eq_take.1 (Text.cut_spec ((written facts).map lineOf) k).1).symm

theorem whole_subset {x : Str × Str} (h : x ∈ whole facts k) : x ∈ facts :=
  (mem_newIn (List.mem_of_mem_take h)).1

/-- A torn line is the start of the line of a fact. -/
theorem torn_prefix (h : torn facts k ≠ []) : ∃ x ∈ facts, torn facts k <+: lineOf x := by
  obtain ⟨l, rest, hlines, hl⟩ := (Text.cut_spec ((written facts).map lineOf) k).2 h
  have hmem : l ∈ (written facts).map lineOf := by
    rw [hlines]
    simp
  obtain ⟨x, hx, rfl⟩ := List.mem_map.1 hmem
  exact ⟨x, (mem_newIn hx).1, hl⟩

theorem newline_not_mem_torn : 10 ∉ torn facts k := by
  by_cases h : torn facts k = []
  · simp [h]
  · obtain ⟨x, -, hx⟩ := torn_prefix h
    exact fun hmem => newline_not_mem_lineOf (hx.subset hmem)

theorem return_not_mem_torn : 13 ∉ torn facts k := by
  by_cases h : torn facts k = []
  · simp [h]
  · obtain ⟨x, -, hx⟩ := torn_prefix h
    exact fun hmem => return_not_mem_lineOf (hx.subset hmem)

theorem readLines_append (lines more : List Str) :
    readLines (lines ++ more) = readLines lines ++ readLines more := List.filterMap_append

/-- The text that the cut leaves, read as facts. -/
theorem readLines_cut :
    readLines (Text.lines 10 (logText (whole facts k) ++ torn facts k)) = recovered facts k := by
  rw [logText, Text.lines_unlines_append (newline_not_mem_lines _), readLines_append,
    readLines_map, Text.lines_of_not_mem newline_not_mem_torn, recovered]
  rcases torn facts k with _ | ⟨c, s⟩
  · rfl
  · exact congrArg _ (List.filterMap_cons ..)

theorem crashed_eq (hpath : path ≠ []) (hfile : file.getD [] = []) :
    crashed path file facts k
      = logged (recovered facts k) (logText (whole facts k) ++ torn facts k) := by
  have hnew : new path file true = logged [] [] := by
    rw [new_eq hpath, hfile]
    rfl
  have htext : (logText (written facts)).take k = logText (whole facts k) ++ torn facts k := by
    rw [logText, Text.take_unlines, logText, map_whole]
    rfl
  rw [crashed, hnew, appendAll_logged, new_eq hpath]
  show logged (readLines (Text.lines 10 ((logText (written facts)).take k)))
    ((logText (written facts)).take k) = _
  rw [htext, readLines_cut]

theorem prefix_lineOf {p : Str} {x : Str × Str} (h : p <+: lineOf x) :
    p <+: escape x.1 ∨ ∃ q, p = escape x.1 ++ 9 :: q ∧ q <+: escape x.2 := by
  rw [lineOf_eq] at h
  rcases List.prefix_or_prefix_of_prefix h (List.prefix_append ..) with hp | ⟨r, rfl⟩
  · exact .inl hp
  · rw [List.prefix_append_right_inj, List.prefix_cons_iff] at h
    rcases h with rfl | ⟨q, rfl, hq⟩
    · exact .inl (by simp)
    · exact .inr ⟨q, rfl, hq⟩

/-- A fact whose line goes on in a torn one is not read back. -/
theorem readLine_torn_ne (h : torn facts k ≠ []) (x : Str × Str) :
    readLine (torn facts k ++ lineOf x) ≠ some x := by
  have hreturn : 13 ∉ torn facts k ++ lineOf x := fun hmem =>
    (List.mem_append.1 hmem).elim return_not_mem_torn return_not_mem_lineOf
  obtain ⟨y, -, hy⟩ := torn_prefix h
  rw [lineOf_eq] at hreturn ⊢
  rcases prefix_lineOf hy with hp | ⟨q, hq, -⟩
  · -- torn in the type, which then differs
    rw [← List.append_assoc] at hreturn ⊢
    have htab : 9 ∉ torn facts k ++ escape x.1 := fun hmem =>
      (List.mem_append.1 hmem).elim (fun h => tab_not_mem_escape (hp.subset h)) tab_not_mem_escape
    rw [readLine_tab htab hreturn]
    intro heq
    exact escaping.unescape_torn_ne hp h x.1 (congrArg Prod.fst (Option.some.inj heq))
  · -- torn in the content, which then has a tab more
    rw [hq, List.append_assoc, List.cons_append] at hreturn ⊢
    rw [readLine_tab tab_not_mem_escape hreturn]
    intro heq
    have hcontent : unescape (q ++ (escape x.1 ++ 9 :: escape x.2)) = x.2 :=
      congrArg Prod.snd (Option.some.inj heq)
    have hlen := congrArg List.length hcontent
    rw [← List.append_assoc, unescape, escaping.unescape_append_cons (by decide) (by decide),
      show escaping.unescape (escape x.2) = x.2 from escaping.unescape_escape x.2,
      List.length_append, List.length_cons] at hlen
    omega

theorem reopen_crashed (hpath : path ≠ []) (hfile : file.getD [] = []) (id : Str) :
    (((crashed path file facts k).appendAll later).reopen path).get id
      = (lastWith id (readLines (Text.lines 10 (logText (whole facts k) ++ torn facts k
          ++ logText (newIn (recovered facts k) later))))).map factOf := by
  rw [crashed_eq hpath hfile, appendAll_logged, reopen, new_eq hpath]
  exact get_assignAll _ id

/-- The facts that are read then, if the cut left a torn line and there was a new fact. -/
theorem readLines_torn {x : Str × Str} {rest : List (Str × Str)} :
    readLines (Text.lines 10 (logText (whole facts k) ++ torn facts k ++ logText (x :: rest)))
      = whole facts k ++ ((readLine (torn facts k ++ lineOf x)).toList ++ rest) := by
  have htext : logText (whole facts k) ++ torn facts k ++ logText (x :: rest)
      = Text.unlines 10 ((whole facts k).map lineOf
          ++ (torn facts k ++ lineOf x) :: rest.map lineOf) := by
    rw [Text.unlines_append, Text.unlines_cons, logText, logText, List.map_cons, Text.unlines_cons]
    simp only [List.append_assoc]
  have hlines : ∀ l ∈ (whole facts k).map lineOf ++ (torn facts k ++ lineOf x) :: rest.map lineOf,
      10 ∉ l := by
    intro l hl
    rcases List.mem_append.1 hl with hl | hl
    · exact newline_not_mem_lines _ l hl
    · rcases List.mem_cons.1 hl with rfl | hl
      · exact fun hmem =>
          (List.mem_append.1 hmem).elim newline_not_mem_torn newline_not_mem_lineOf
      · exact newline_not_mem_lines _ l hl
  rw [htext, Text.lines_unlines hlines, readLines_append, readLines_map]
  refine congrArg _ ?_
  show readLines ([torn facts k ++ lineOf x] ++ rest.map lineOf) = _
  rw [readLines_append, readLines_map]
  refine congrArg (· ++ rest) ?_
  unfold readLines
  rcases h : readLine (torn facts k ++ lineOf x) with _ | y <;> simp [h]

theorem lost_of_torn (hpath : path ≠ []) (hfile : file.getD [] = []) (htorn : torn facts k ≠ [])
    {x : Str × Str} {rest : List (Str × Str)}
    (hnew : newIn (recovered facts k) later = x :: rest) :
    (((crashed path file facts k).appendAll later).reopen path).get (digest x)
      ≠ some (factOf x) := by
  rw [reopen_crashed hpath hfile, hnew, readLines_torn]
  have hrecovered := (mem_newIn (x := x) (by rw [hnew]; exact List.mem_cons_self)).2
  rw [recovered, lastWith_append, Option.or_eq_none_iff] at hrecovered
  have hrest : lastWith (digest x) rest = none := by
    have hpairwise := newIn_pairwise later (recovered facts k)
    rw [hnew] at hpairwise
    exact lastWith_eq_none.2 fun y hy => List.rel_of_pairwise_cons hpairwise hy
  rw [lastWith_append, lastWith_append, hrest, Option.none_or, hrecovered.2, Option.or_none]
  intro h
  obtain ⟨y, hy, hyx⟩ := Option.map_eq_some_iff.1 h
  obtain rfl := factOf_inj hyx
  exact readLine_torn_ne htorn y (Option.mem_toList.1 (mem_of_lastWith hy).1)

/-- If the cut left no torn line, or there was no new fact, all is read that was read or is new. -/
theorem reopen_clean (hpath : path ≠ []) (hfile : file.getD [] = [])
    (h : torn facts k ≠ [] → newIn (recovered facts k) later = []) (id : Str) :
    (((crashed path file facts k).appendAll later).reopen path).get id
      = ((lastWith id (newIn (recovered facts k) later)).or
          (lastWith id (recovered facts k))).map factOf := by
  rw [reopen_crashed hpath hfile, ← lastWith_append]
  refine congrArg (fun facts => (lastWith id facts).map factOf) ?_
  by_cases htorn : torn facts k = []
  · have hrecovered : recovered facts k = whole facts k := by
      rw [recovered, htorn]
      exact List.append_nil _
    rw [htorn, List.append_nil, ← logText_append, readLines_logText, hrecovered]
  · rw [h htorn, List.append_nil]
    show readLines (Text.lines 10 (logText (whole facts k) ++ torn facts k ++ [])) = _
    rw [List.append_nil, readLines_cut]

/-- What a cut of the log does, and exactly when it does no harm. -/
theorem crash_iff (hpath : path ≠ []) (hfile : file.getD [] = []) (facts : List (Str × Str))
    (k : ℕ) (later : List (Str × Str)) :
    CrashSafe path file facts k later ↔ CutClean facts k later := by
  have hload : ∀ id, (crashed path file facts k).get id
      = (lastWith id (recovered facts k)).map factOf := fun id => by
    rw [crashed_eq hpath hfile]
    exact get_assignAll _ id
  constructor
  · rintro ⟨hloaded, hkept⟩
    have hclean : torn facts k ≠ [] → newIn (recovered facts k) later = [] := fun htorn => by
      rcases hnew : newIn (recovered facts k) later with _ | ⟨x, rest⟩
      · rfl
      · have hx : x ∈ later := (mem_newIn (by rw [hnew]; exact List.mem_cons_self)).1
        exact (lost_of_torn hpath hfile htorn hnew (hkept x hx)).elim
    have hget := reopen_clean hpath hfile hclean
    refine ⟨fun x hx => ?_, fun x hx y hy => ?_, fun x hx hnone => ⟨?_, fun y hy hyx => ?_⟩⟩
    · refine hloaded (digest x) (factOf x) ?_
      rw [hload, recovered, lastWith_append, hx]
      simp [lastWith]
    · have h := hkept x hx
      rw [hget, lastWith_newIn hy, hy] at h
      exact factOf_inj (Option.some.inj h)
    · by_contra htorn
      obtain ⟨y, hy, -⟩ := exists_newIn hx hnone
      rw [hclean htorn] at hy
      cases hy
    · have h := hkept y hy
      rw [hyx, hkept x hx] at h
      exact (factOf_inj (Option.some.inj h)).symm
  · rintro ⟨htorn_mem, hlater_eq, hlater_new⟩
    have hclean : torn facts k ≠ [] → newIn (recovered facts k) later = [] := fun htorn => by
      rcases hnew : newIn (recovered facts k) later with _ | ⟨x, rest⟩
      · rfl
      · obtain ⟨hx, hnone⟩ := mem_newIn (x := x) (by rw [hnew]; exact List.mem_cons_self)
        exact (htorn (hlater_new x hx hnone).1).elim
    have hget := reopen_clean hpath hfile hclean
    refine ⟨fun id fact h => ?_, fun x hx => ?_⟩
    · rw [hload] at h
      obtain ⟨x, hx, rfl⟩ := Option.map_eq_some_iff.1 h
      rcases List.mem_append.1 (mem_of_lastWith hx).1 with hmem | hmem
      · exact whole_subset hmem
      · exact htorn_mem x (Option.mem_toList.1 hmem)
    · rw [hget]
      rcases hlast : lastWith (digest x) (recovered facts k) with _ | y
      · obtain ⟨y, hy, hyx⟩ := exists_newIn hx hlast
        obtain ⟨z, hz⟩ : ∃ z, lastWith (digest x) (newIn (recovered facts k) later) = some z := by
          refine Option.ne_none_iff_exists'.1 fun hnone => ?_
          exact lastWith_eq_none.1 hnone y hy hyx
        obtain ⟨hzmem, hzx⟩ := mem_of_lastWith hz
        rw [hz, (hlater_new x hx hlast).2 z (mem_newIn hzmem).1 hzx]
        rfl
      · rw [lastWith_newIn hlast, hlater_eq x hx y hlast]
        rfl

theorem crash_notes :
    CrashSafe "facts.log" none [(lit "note", lit "ab"), (lit "note", lit "c")] 8
      [(lit "note", lit "c"), (lit "todo", lit "d")] :=
  (crash_iff (by decide) rfl _ _ _).2 ⟨by decide, by decide, by decide⟩

/-- Cut inside the content, the line is read as a fact that was never appended. -/
theorem not_crashSafe : ¬ CrashSafe "facts.log" none [(lit "note", lit "ab")] 6 [] := fun h =>
  absurd (h.loaded (digest (lit "note", lit "a")) (factOf (lit "note", lit "a")) (by decide))
    (by decide)

end FactFile

end Praxis
