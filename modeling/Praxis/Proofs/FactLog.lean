import Praxis.Proofs.FactStore

/-!
# Reloading a fact store

The lines of a log are read back as the facts they were written for, so a store that is made again
on its file is the store it was (`reopen_reproduces`).
-/

namespace Praxis

namespace FactStore

variable {x y : Str × Str} {l r s : Str} {id : Str}

abbrev lineOf (fact : Str × Str) : Str := line fact.1 fact.2

theorem tab_not_mem_escape : 9 ∉ escape s :=
  escaping.not_mem_escape (by decide) (by decide) (by decide)

theorem newline_not_mem_escape : 10 ∉ escape s :=
  escaping.not_mem_escape (by decide) (by decide) (by decide)

theorem return_not_mem_escape : 13 ∉ escape s :=
  escaping.not_mem_escape (by decide) (by decide) (by decide)

theorem lineOf_eq (x : Str × Str) : lineOf x = escape x.1 ++ 9 :: escape x.2 := by
  simp only [lineOf, line, List.append_assoc]
  rfl

theorem newline_not_mem_lineOf : 10 ∉ lineOf x := by
  rw [lineOf_eq]
  simp [newline_not_mem_escape]

theorem return_not_mem_lineOf : 13 ∉ lineOf x := by
  rw [lineOf_eq]
  simp [return_not_mem_escape]

/-- A line that does not end in a carriage return is read as it is. -/
theorem readLine_eq (h : 13 ∉ s) : readLine s = (s.idxOf? 9).map fun pos =>
    (unescape (s.take pos), unescape (s.drop (pos + 1))) := by
  unfold readLine
  rw [if_neg fun hlast => h (List.mem_of_getLast? hlast)]
  dsimp only
  rcases s.idxOf? 9 with _ | pos <;> rfl

theorem readLine_tab (htab : 9 ∉ l) (h : 13 ∉ l ++ 9 :: r) :
    readLine (l ++ 9 :: r) = some (unescape l, unescape r) := by
  have hidx : (l ++ 9 :: r).idxOf? 9 = some l.length := by
    refine List.idxOf?_eq_some_iff.2 ⟨by simp, by simp, fun j hj h => htab ?_⟩
    rw [List.getElem_append_left hj] at h
    exact h ▸ List.getElem_mem hj
  rw [readLine_eq h, hidx]
  simp

@[simp] theorem readLine_lineOf (x : Str × Str) : readLine (lineOf x) = some x := by
  have h := return_not_mem_lineOf (x := x)
  rw [lineOf_eq] at h ⊢
  rw [readLine_tab tab_not_mem_escape h]
  simp only [unescape, escape, Text.Escaping.unescape_escape]

@[simp] theorem readLines_map (facts : List (Str × Str)) :
    readLines (facts.map lineOf) = facts := by
  unfold readLines
  rw [List.filterMap_map, show readLine ∘ lineOf = some from funext readLine_lineOf,
    List.filterMap_some]

def logText (facts : List (Str × Str)) : Str := Text.unlines 10 (facts.map lineOf)

theorem newline_not_mem_lines (facts : List (Str × Str)) : ∀ l ∈ facts.map lineOf, 10 ∉ l := by
  intro l hl
  obtain ⟨x, -, rfl⟩ := List.mem_map.1 hl
  exact newline_not_mem_lineOf

theorem logText_append (facts later : List (Str × Str)) :
    logText (facts ++ later) = logText facts ++ logText later := by
  rw [logText, List.map_append, Text.unlines_append, logText, logText]

/-- The text of facts reads as just them. -/
theorem readLines_logText (facts : List (Str × Str)) :
    readLines (Text.lines 10 (logText facts)) = facts := by
  rw [logText, Text.lines_unlines (newline_not_mem_lines facts), readLines_map]

def lastWith (id : Str) (facts : List (Str × Str)) : Option (Str × Str) :=
  facts.reverse.find? fun x => digest x == id

theorem lastWith_append (id : Str) (facts later : List (Str × Str)) :
    lastWith id (facts ++ later) = (lastWith id later).or (lastWith id facts) := by
  unfold lastWith
  rw [List.reverse_append, List.find?_append]

theorem lastWith_eq_none {facts : List (Str × Str)} :
    lastWith id facts = none ↔ ∀ x ∈ facts, digest x ≠ id := by
  simp [lastWith]

theorem mem_of_lastWith {facts : List (Str × Str)} (h : lastWith id facts = some x) :
    x ∈ facts ∧ digest x = id := by
  unfold lastWith at h
  exact ⟨List.mem_reverse.1 (List.mem_of_find?_eq_some h), by simpa using List.find?_some h⟩

theorem get_assignAll (facts : List (Str × Str)) (id : Str) :
    (assignAll {} facts).get id = (lastWith id facts).map factOf := by
  induction facts using List.reverseRecOn with
  | nil => rfl
  | append_singleton facts x ih =>
    rw [assignAll, List.foldl_append, List.foldl_cons, List.foldl_nil, ← assignAll, get_assign, ih,
      lastWith_append]
    by_cases h : id = digest x
    · simp [lastWith, h]
    · simp [lastWith, h, Ne.symm h]

/-- Of facts that are appended to a store of `seen`, those that are new to it. -/
def newIn : List (Str × Str) → List (Str × Str) → List (Str × Str)
  | _, [] => []
  | seen, x :: facts =>
    if seen.any fun y => digest y == digest x then newIn seen facts
    else x :: newIn (seen ++ [x]) facts

theorem mem_newIn :
    ∀ {facts seen : List (Str × Str)}, x ∈ newIn seen facts →
      x ∈ facts ∧ lastWith (digest x) seen = none
  | [], seen, h => by cases h
  | y :: facts, seen, h => by
    unfold newIn at h
    split_ifs at h with hseen
    · obtain ⟨hx, hnone⟩ := mem_newIn h
      exact ⟨List.mem_cons_of_mem y hx, hnone⟩
    · rcases List.mem_cons.1 h with rfl | h
      · refine ⟨List.mem_cons_self, lastWith_eq_none.2 fun z hz hzx => hseen ?_⟩
        exact List.any_eq_true.2 ⟨z, hz, by simpa using hzx⟩
      · obtain ⟨hx, hnone⟩ := mem_newIn h
        rw [lastWith_append, Option.or_eq_none_iff] at hnone
        exact ⟨List.mem_cons_of_mem y hx, hnone.2⟩

/-- No new fact has an id that was seen. -/
theorem lastWith_newIn {facts seen : List (Str × Str)} (h : lastWith id seen = some x) :
    lastWith id (newIn seen facts) = none := by
  refine lastWith_eq_none.2 fun y hy hid => ?_
  have hnone := (mem_newIn hy).2
  rw [hid, h] at hnone
  cases hnone

theorem newIn_pairwise :
    ∀ facts seen : List (Str × Str),
      (newIn seen facts).Pairwise fun x y => digest y ≠ digest x
  | [], _ => .nil
  | x :: facts, seen => by
    unfold newIn
    split_ifs
    · exact newIn_pairwise facts seen
    · refine .cons (fun y hy => ?_) (newIn_pairwise facts _)
      have hnone := (mem_newIn hy).2
      exact fun h => lastWith_eq_none.1 hnone x (by simp) h.symm

/-- Each of the facts has its id among the facts seen or the new ones. -/
theorem exists_newIn :
    ∀ {facts seen : List (Str × Str)}, x ∈ facts → lastWith (digest x) seen = none →
      ∃ y ∈ newIn seen facts, digest y = digest x
  | z :: facts, seen, hx, hnone => by
    unfold newIn
    split_ifs with hseen
    · rcases List.mem_cons.1 hx with rfl | hx
      · obtain ⟨y, hy, hyx⟩ := List.any_eq_true.1 hseen
        exact absurd (by simpa using hyx) (lastWith_eq_none.1 hnone y hy)
      · exact exists_newIn hx hnone
    · by_cases hzx : digest z = digest x
      · exact ⟨z, List.mem_cons_self, hzx⟩
      · rcases List.mem_cons.1 hx with rfl | hx
        · exact (hzx rfl).elim
        · have hnone' : lastWith (digest x) (seen ++ [z]) = none := by
            rw [lastWith_append, hnone, Option.or_none]
            exact lastWith_eq_none.2 fun y hy => List.mem_singleton.1 hy ▸ hzx
          obtain ⟨y, hy, hyx⟩ := exists_newIn hx hnone'
          exact ⟨y, List.mem_cons_of_mem z hy, hyx⟩

end FactStore

namespace FactFile

open FactStore

variable {path : Str} {f : FactFile}

/-- A store that has been made of `seen`, on a file of the given text. -/
def logged (seen : List (Str × Str)) (text : Str) : FactFile where
  store := assignAll {} seen
  is_open := true
  file := some text

theorem new_eq (hpath : path ≠ []) (file : Option Str) :
    new path file true
      = logged (readLines (Text.lines 10 (file.getD []))) (file.getD []) := by
  have hempty : path.isEmpty = false := by simpa using hpath
  simp only [new, logged, hempty, Bool.false_eq_true, if_false, if_true, load_eq]

theorem isSome_get_logged {seen : List (Str × Str)} {text : Str} (x : Str × Str) :
    ((logged seen text).get (digest x)).isSome ↔ seen.any fun y => digest y == digest x := by
  refine Iff.trans (b := ((lastWith (digest x) seen).map factOf).isSome) ?_ ?_
  · rw [← get_assignAll]
    rfl
  · rw [Option.isSome_map]
    simp [lastWith]

/-- What appends make of a store and its file: the facts that are new are added to both. -/
theorem appendAll_logged :
    ∀ (facts seen : List (Str × Str)) (text : Str),
      (logged seen text).appendAll facts
        = logged (seen ++ newIn seen facts) (text ++ logText (newIn seen facts))
  | [], seen, text => by simp [appendAll, newIn, logText, Text.unlines]
  | x :: facts, seen, text => by
    show ((logged seen text).append x.1 x.2).2.appendAll facts = _
    unfold newIn
    split_ifs with hseen
    · rw [append_known ((isSome_get_logged x).2 hseen), appendAll_logged facts seen text]
    · have hnone : (logged seen text).get (digest x) = none := by
        rw [← Option.not_isSome_iff_eq_none, isSome_get_logged x]
        exact hseen
      have happend : ((logged seen text).append x.1 x.2).2
          = logged (seen ++ [x]) (text ++ (lineOf x ++ "\n")) := by
        rw [append_new hnone]
        simp only [logged, assignAll, List.foldl_append, List.foldl_cons, List.foldl_nil, if_true,
          Option.map_some]
      rw [happend, appendAll_logged facts (seen ++ [x])]
      simp only [logText, List.map_cons, Text.unlines_cons, List.append_assoc,
        List.singleton_append]
      rfl

/-- A store whose file holds just its facts is the same after it has been made again. -/
theorem reopen_logged (hpath : path ≠ []) (facts : List (Str × Str)) :
    (logged facts (logText facts)).reopen path = logged facts (logText facts) := by
  rw [reopen, new_eq hpath]
  show logged (readLines (Text.lines 10 (logText facts))) (logText facts) = _
  rw [readLines_logText]

/-- What is done with a store while it is in use. -/
inductive Use
  | append (type content : Str)
  | reopen

def use (path : Str) (f : FactFile) : Use → FactFile
  | .append type content => (f.append type content).2
  | .reopen => f.reopen path

def useAll (path : Str) (f : FactFile) (uses : List Use) : FactFile := uses.foldl (use path) f

/-- The facts that are appended. -/
def appended (uses : List Use) : List (Str × Str) :=
  uses.filterMap fun
    | .append type content => some (type, content)
    | .reopen => none

/-- Reopening in between makes no difference. -/
theorem useAll_logged (hpath : path ≠ []) :
    ∀ (uses : List Use) (seen : List (Str × Str)),
      useAll path (logged seen (logText seen)) uses
        = logged (seen ++ newIn seen (appended uses))
          (logText (seen ++ newIn seen (appended uses)))
  | [], seen => by simp [useAll, appended, newIn]
  | .reopen :: uses, seen => by
    show useAll path ((logged seen (logText seen)).reopen path) uses = _
    rw [reopen_logged hpath, useAll_logged hpath uses]
    rfl
  | .append type content :: uses, seen => by
    have happend := appendAll_logged [(type, content)] seen (logText seen)
    have ih := useAll_logged hpath uses (seen ++ newIn seen [(type, content)])
    show useAll path ((logged seen (logText seen)).appendAll [(type, content)]) uses = _
    rw [happend, ← logText_append, ih]
    simp only [appended, List.filterMap_cons, newIn]
    split_ifs <;> simp

/-- A store on a file that is absent or empty at first: reopening gives back every entry, every
entry is under its own digest, and appending again what was appended adds nothing. -/
theorem reopen_reproduces {file : Option Str} (hpath : path ≠ []) (hfile : file.getD [] = [])
    (uses : List Use) :
    let f := useAll path (new path file true) uses
    (∀ id, (f.reopen path).get id = f.get id)
      ∧ (∀ id fact, f.get id = some fact →
          fact.id = id ∧ id = digest_hex fact.type fact.content)
      ∧ ∀ type content, .append type content ∈ uses →
          (f.reopen path).append type content = (digest_hex type content, f.reopen path) := by
  have hnew : new path file true = logged [] (logText []) := by
    rw [new_eq hpath, hfile]
    rfl
  dsimp only
  rw [hnew, useAll_logged hpath uses, List.nil_append, reopen_logged hpath]
  refine ⟨fun id => rfl, fun id fact h => ?_, fun type content h => ?_⟩
  · obtain ⟨hid, hfact⟩ := keyed_empty.assignAll _ id fact h
    exact ⟨(congrArg Fact.id hfact).trans hid.symm, hid⟩
  · have hmem : (type, content) ∈ appended uses := List.mem_filterMap.2 ⟨_, h, rfl⟩
    have hnone : lastWith (digest (type, content)) [] = none := rfl
    obtain ⟨y, hy, hdigest⟩ := exists_newIn hmem hnone
    refine Prod.ext (append_fst _ _ _) (@append_known _ (type, content) ?_)
    rw [isSome_get_logged]
    exact List.any_eq_true.2 ⟨y, hy, by simpa using hdigest⟩

theorem reopen_reproduces_notes :
    let f := useAll "facts.log" (new "facts.log" none true)
      [.append "note" "a\tb\r\n", .reopen, .append "" "\\"]
    ∀ id, (f.reopen "facts.log").get id = f.get id :=
  (reopen_reproduces (by decide) rfl _).1

end FactFile

end Praxis
