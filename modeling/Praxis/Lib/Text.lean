import Mathlib.Data.List.Infix
import Mathlib.Data.List.TakeWhile

/-!
# Escaped text in lines

An `Escaping` writes each special character as a mark and a letter, so that the text it makes is
free of the special characters other than the mark. `lines` cuts a text at a separator as a reader
of lines does, the last line with or without one. `runs` are the longest pieces of a text whose
elements all have a property. Fields are `joined` with a separator after each.
-/

namespace Text

variable {α : Type}

/-- The mark, and the letters that stand for the special characters; the mark is one, and stands
for itself. -/
structure Escaping (α : Type) where
  mark : α
  letter : α → Option α
  special : α → Option α
  special_iff : ∀ c l, special l = some c ↔ letter c = some l
  letter_mark : letter mark = some mark

namespace Escaping

variable (E : Escaping α) {s t p w : List α} {c d l : α}

def escapeChar (c : α) : List α :=
  match E.letter c with
  | some l => [E.mark, l]
  | none => [c]

def escape (s : List α) : List α := s.flatMap E.escapeChar

/-- A mark that no known letter follows stays. -/
def unescape [DecidableEq α] : List α → List α
  | [] => []
  | [c] => [c]
  | c :: l :: s =>
    if c = E.mark then
      match E.special l with
      | some d => d :: unescape s
      | none => c :: unescape (l :: s)
    else c :: unescape (l :: s)

@[simp] theorem escape_nil : E.escape [] = [] := rfl

theorem escape_cons (c : α) (s : List α) : E.escape (c :: s) = E.escapeChar c ++ E.escape s := rfl

theorem escape_cons_letter (s : List α) (h : E.letter c = some l) :
    E.escape (c :: s) = E.mark :: l :: E.escape s := by simp [escape_cons, escapeChar, h]

theorem escape_cons_plain (s : List α) (h : E.letter c = none) :
    E.escape (c :: s) = c :: E.escape s := by simp [escape_cons, escapeChar, h]

theorem ne_mark_of_plain (h : E.letter c = none) : c ≠ E.mark := by
  rintro rfl
  rw [E.letter_mark] at h
  cases h

/-- Escaped text has only marks, letters and characters that are not special. -/
theorem mem_escape (h : d ∈ E.escape s) :
    d = E.mark ∨ E.special d ≠ none ∨ E.letter d = none := by
  obtain ⟨c, -, hc⟩ := List.mem_flatMap.1 h
  unfold escapeChar at hc
  rcases hl : E.letter c with _ | l <;> simp only [hl] at hc
  · obtain rfl := List.mem_singleton.1 hc
    exact .inr (.inr hl)
  · rcases List.mem_cons.1 hc with rfl | hc
    · exact .inl rfl
    · obtain rfl := List.mem_singleton.1 hc
      refine .inr (.inl ?_)
      rw [(E.special_iff c d).2 hl]
      exact Option.some_ne_none c

theorem not_mem_escape (hd : d ≠ E.mark) (hl : E.special d = none) (hs : E.letter d ≠ none) :
    d ∉ E.escape s := fun h => by
  rcases E.mem_escape h with h | h | h
  · exact hd h
  · exact h hl
  · exact hs h

/-- A prefix of escaped text is escaped text, but that it may end in a mark without its letter. -/
theorem prefix_escape : ∀ {s p : List α}, p <+: E.escape s →
    ∃ q, q <+: s ∧ (p = E.escape q ∨ p = E.escape q ++ [E.mark])
  | s, [], _ => ⟨[], List.nil_prefix, .inl rfl⟩
  | [], _ :: _, h => by simp at h
  | c :: s, a :: p, h => by
    rcases hl : E.letter c with _ | l
    · rw [E.escape_cons_plain s hl, List.cons_prefix_cons] at h
      obtain ⟨rfl, h⟩ := h
      obtain ⟨q, hq, hp⟩ := prefix_escape h
      refine ⟨a :: q, List.cons_prefix_cons.2 ⟨rfl, hq⟩, ?_⟩
      rw [E.escape_cons_plain q hl]
      exact hp.imp (congrArg (a :: ·)) (congrArg (a :: ·))
    · rw [E.escape_cons_letter s hl, List.cons_prefix_cons] at h
      obtain ⟨rfl, h⟩ := h
      cases p with
      | nil => exact ⟨[], List.nil_prefix, .inr rfl⟩
      | cons b p =>
        rw [List.cons_prefix_cons] at h
        obtain ⟨rfl, h⟩ := h
        obtain ⟨q, hq, hp⟩ := prefix_escape h
        refine ⟨c :: q, List.cons_prefix_cons.2 ⟨rfl, hq⟩, ?_⟩
        rw [E.escape_cons_letter q hl]
        exact hp.imp (congrArg (E.mark :: b :: ·)) (congrArg (E.mark :: b :: ·))

variable [DecidableEq α]

theorem unescape_mark_letter (s : List α) (h : E.special l = some d) :
    E.unescape (E.mark :: l :: s) = d :: E.unescape s := by simp [unescape, h]

theorem unescape_mark_plain (s : List α) (h : E.special l = none) :
    E.unescape (E.mark :: l :: s) = E.mark :: E.unescape (l :: s) := by simp [unescape, h]

theorem unescape_cons (h : c ≠ E.mark) : ∀ s, E.unescape (c :: s) = c :: E.unescape s
  | [] => by simp [unescape]
  | l :: s => by simp [unescape, h]

theorem unescape_escape_append (t : List α) : ∀ s, E.unescape (E.escape s ++ t) = s ++ E.unescape t
  | [] => rfl
  | c :: s => by
    rcases h : E.letter c with _ | l
    · rw [E.escape_cons_plain s h, List.cons_append, E.unescape_cons (E.ne_mark_of_plain h),
        unescape_escape_append t s]
      rfl
    · rw [E.escape_cons_letter s h, List.cons_append, List.cons_append,
        E.unescape_mark_letter _ ((E.special_iff c l).2 h), unescape_escape_append t s]
      rfl

@[simp] theorem unescape_escape (s : List α) : E.unescape (E.escape s) = s := by
  have h := E.unescape_escape_append [] s
  rwa [List.append_nil, show E.unescape [] = [] from rfl, List.append_nil] at h

/-- A character that is neither the mark nor a letter comes through, whatever is around it. -/
theorem unescape_append_cons (hd : d ≠ E.mark) (hl : E.special d = none) (s : List α) :
    ∀ w, E.unescape (w ++ d :: s) = E.unescape w ++ d :: E.unescape s
  | [] => E.unescape_cons hd s
  | [c] => by
    by_cases hc : c = E.mark
    · rw [hc, List.singleton_append, E.unescape_mark_plain s hl, E.unescape_cons hd]
      rfl
    · rw [List.singleton_append, E.unescape_cons hc, E.unescape_cons hd]
      rfl
  | c :: l :: w => by
    by_cases hc : c = E.mark
    · subst hc
      rcases h : E.special l with _ | e
      · have ih := unescape_append_cons hd hl s (l :: w)
        rw [E.unescape_mark_plain w h, List.cons_append, List.cons_append,
          E.unescape_mark_plain _ h, ← List.cons_append, ih]
        rfl
      · rw [E.unescape_mark_letter w h, List.cons_append, List.cons_append,
          E.unescape_mark_letter _ h, unescape_append_cons hd hl s w]
        rfl
    · have ih := unescape_append_cons hd hl s (l :: w)
      rw [E.unescape_cons hc, List.cons_append, E.unescape_cons hc, ih]
      rfl

/-- A mark before escaped text does not give back the text. -/
theorem unescape_mark_escape_ne : ∀ t, E.unescape (E.mark :: E.escape t) ≠ t
  | [] => List.cons_ne_nil _ _
  | c :: t => by
    have hmark : E.special E.mark = some E.mark := (E.special_iff _ _).2 E.letter_mark
    rcases hl : E.letter c with _ | l
    · rw [E.escape_cons_plain t hl]
      rcases hs : E.special c with _ | d
      · rw [E.unescape_mark_plain _ hs, E.unescape_cons (E.ne_mark_of_plain hl), unescape_escape]
        exact fun h => List.cons_ne_self _ _ (List.cons.inj h).2
      · -- `c` is read as a letter, and what it stands for is special
        rw [E.unescape_mark_letter _ hs, unescape_escape]
        intro h
        obtain rfl := (List.cons.inj h).1
        rw [E.special_iff, hl] at hs
        cases hs
    · rw [E.escape_cons_letter t hl, E.unescape_mark_letter _ hmark]
      intro h
      obtain ⟨rfl, htail⟩ := List.cons.inj h
      obtain rfl : E.mark = l := Option.some.inj (E.letter_mark.symm.trans hl)
      exact unescape_mark_escape_ne t htail

theorem length_le_unescape_mark : ∀ t, t.length ≤ (E.unescape (E.mark :: E.escape t)).length
  | [] => Nat.zero_le _
  | c :: t => by
    have hmark : E.special E.mark = some E.mark := (E.special_iff _ _).2 E.letter_mark
    rcases hl : E.letter c with _ | l
    · rw [E.escape_cons_plain t hl]
      rcases hs : E.special c with _ | d
      · simp [E.unescape_mark_plain _ hs, E.unescape_cons (E.ne_mark_of_plain hl)]
      · simp [E.unescape_mark_letter _ hs]
    · rw [E.escape_cons_letter t hl, E.unescape_mark_letter _ hmark]
      by_cases hlm : l = E.mark
      · rw [hlm]
        exact Nat.succ_le_succ (length_le_unescape_mark t)
      · simp [E.unescape_cons hlm]

/-- What a writer starts after a piece of escaped text is not read back as it was. -/
theorem unescape_torn_ne (hp : p <+: E.escape s) (hne : p ≠ []) (t : List α) :
    E.unescape (p ++ E.escape t) ≠ t := by
  obtain ⟨q, -, rfl | rfl⟩ := E.prefix_escape hp
  · rw [unescape_escape_append, unescape_escape]
    intro h
    obtain rfl := List.append_left_eq_self.1 h
    exact hne rfl
  · rw [List.append_assoc, List.singleton_append, unescape_escape_append]
    intro h
    cases q with
    | nil => exact E.unescape_mark_escape_ne t h
    | cons c q =>
      have hlen := congrArg List.length h
      have hle := E.length_le_unescape_mark t
      simp only [List.length_append, List.length_cons] at hlen
      omega

end Escaping

section Runs

variable (p : α → Bool)

/-- The maximal runs of elements with the property. -/
def runs (s : List α) : List (List α) := (s.splitOnP fun a => !p a).filter fun run => !run.isEmpty

variable {p} {a : α}

theorem runs_nil : runs p [] = [] := rfl

theorem runs_cons_of_not (h : p a = false) (s : List α) : runs p (a :: s) = runs p s := by
  unfold runs
  rw [List.splitOnP_cons_eq_if_modifyHead, if_pos (by simp [h])]
  rfl

theorem isEmpty_head_splitOnP :
    ∀ s : List α, ((s.splitOnP fun a => !p a).head?.any fun run => !run.isEmpty) = s.head?.any p
  | [] => rfl
  | a :: s => by
    rw [List.splitOnP_cons_eq_if_modifyHead]
    by_cases h : p a = true
    · obtain ⟨run, rest, hsplit⟩ :=
        List.exists_cons_of_ne_nil (List.splitOnP_ne_nil (fun a => !p a) s)
      simp [hsplit, h]
    · simp [h]

/-- An element with the property begins a run unless it comes before another. -/
theorem length_runs_cons (h : p a = true) (s : List α) :
    (runs p (a :: s)).length + (if s.head?.any p then 1 else 0) = (runs p s).length + 1 := by
  have hhead := isEmpty_head_splitOnP (p := p) s
  unfold runs
  rw [List.splitOnP_cons_eq_if_modifyHead, if_neg (by simp [h]), ← hhead]
  obtain ⟨run, rest, hsplit⟩ :=
    List.exists_cons_of_ne_nil (List.splitOnP_ne_nil (fun a => !p a) s)
  rw [hsplit]
  cases run <;> simp

end Runs

/-! ## Fields -/

section Fields

variable {fields fields' : List (List α × α)}

/-- Fields one after another, each with the separator that ends it. -/
def joined (fields : List (List α × α)) : List α := fields.flatMap fun f => f.1 ++ [f.2]

/-- The same separators, as far as both lists go. -/
def SameEnds (fields fields' : List (List α × α)) : Prop :=
  ∀ p ∈ fields.zip fields', p.1.2 = p.2.2

/-- Where the two first differ, the second has a field that goes on over the separator, and the text
after it is the same. -/
def Recut (fields fields' : List (List α × α)) : Prop :=
  ∃ common field sep more rest rest', fields = common ++ (field, sep) :: rest
    ∧ fields' = common ++ (field ++ sep :: more, sep) :: rest'
    ∧ joined rest = more ++ sep :: joined rest'

theorem joined_cons (field : List α) (sep : α) (rest : List (List α × α)) :
    joined ((field, sep) :: rest) = field ++ sep :: joined rest := by simp [joined]

theorem joined_append (fields later : List (List α × α)) :
    joined (fields ++ later) = joined fields ++ joined later := List.flatMap_append

theorem Recut.cons (f : List α × α) (h : Recut fields fields') :
    Recut (f :: fields) (f :: fields') := by
  obtain ⟨common, field, sep, more, rest, rest', rfl, rfl, h⟩ := h
  exact ⟨f :: common, field, sep, more, rest, rest', rfl, rfl, h⟩

theorem Recut.joined_eq (h : Recut fields fields') : joined fields = joined fields' := by
  obtain ⟨common, field, sep, more, rest, rest', rfl, rfl, h⟩ := h
  rw [joined_append, joined_append, joined_cons, joined_cons, h]
  simp

theorem Recut.ne (h : Recut fields fields') : fields ≠ fields' := by
  obtain ⟨common, field, sep, more, rest, rest', rfl, rfl, -⟩ := h
  intro heq
  have hlength := congrArg (fun f => f.1.length) (List.cons.inj (List.append_cancel_left heq)).1
  simp at hlength

/-- Two lists of fields make one text only if they are the same or one of them recuts the other. -/
theorem joined_eq_iff (hends : SameEnds fields fields') :
    joined fields = joined fields' ↔
      fields = fields' ∨ Recut fields fields' ∨ Recut fields' fields := by
  refine ⟨fun h => ?_, ?_⟩
  · induction fields generalizing fields' with
    | nil =>
      rcases fields' with _ | ⟨⟨field', sep'⟩, rest'⟩
      · exact .inl rfl
      · rw [joined_cons] at h
        simp [joined] at h
    | cons f rest ih =>
      obtain ⟨field, sep⟩ := f
      rcases fields' with _ | ⟨⟨field', sep'⟩, rest'⟩
      · rw [joined_cons] at h
        simp [joined] at h
      · obtain ⟨rfl, hlater⟩ : sep = sep' ∧ SameEnds rest rest' := by
          simpa [SameEnds] using hends
        rw [joined_cons, joined_cons] at h
        rcases List.append_eq_append_iff.1 h with ⟨beyond, rfl, hover⟩ | ⟨beyond, rfl, hover⟩
        · rcases beyond with _ | ⟨c, more⟩
          · rw [List.append_nil]
            rcases ih hlater (List.cons.inj hover).2 with rfl | hcut | hcut
            · exact .inl rfl
            · exact .inr (.inl (hcut.cons _))
            · exact .inr (.inr (hcut.cons _))
          · obtain ⟨rfl, hrest⟩ := List.cons.inj hover
            exact .inr (.inl ⟨[], field, _, more, rest, rest', rfl, rfl, hrest⟩)
        · rcases beyond with _ | ⟨c, more⟩
          · rw [List.append_nil]
            rcases ih hlater (List.cons.inj hover).2.symm with rfl | hcut | hcut
            · exact .inl rfl
            · exact .inr (.inl (hcut.cons _))
            · exact .inr (.inr (hcut.cons _))
          · obtain ⟨rfl, hrest⟩ := List.cons.inj hover
            exact .inr (.inr ⟨[], field', _, more, rest', rest, rfl, rfl, hrest⟩)
  · rintro (rfl | h | h)
    · rfl
    · exact h.joined_eq
    · exact h.joined_eq.symm

end Fields

/-! ## Lines -/

variable {sep : α} {l s : List α}

/-- Lines written out, each ended. -/
def unlines (sep : α) (ls : List (List α)) : List α := ls.flatMap fun l => l ++ [sep]

theorem unlines_cons (l : List α) (ls : List (List α)) :
    unlines sep (l :: ls) = l ++ sep :: unlines sep ls := by simp [unlines]

/-- No two separators stand together in lines that are not empty. -/
theorem not_infix_unlines : ∀ {ls : List (List α)}, (∀ l ∈ ls, l ≠ [] ∧ sep ∉ l) →
    ¬ [sep, sep] <:+: unlines sep ls
  | [], _ => by simp [unlines]
  | l :: ls, h => by
    obtain ⟨⟨-, hl⟩, hls⟩ := List.forall_mem_cons.1 h
    have ih := not_infix_unlines hls
    have hstart : ¬ [sep] <+: unlines sep ls := by
      rcases ls with _ | ⟨l', ls⟩
      · simp [unlines]
      · obtain ⟨hne, hl'⟩ := hls l' List.mem_cons_self
        obtain ⟨c, l', rfl⟩ := List.exists_cons_of_ne_nil hne
        rw [unlines_cons, List.cons_append, List.cons_prefix_cons]
        exact fun hp => hl' (hp.1 ▸ List.mem_cons_self)
    rw [unlines_cons]
    clear h hls
    induction l with
    | nil => simp [List.infix_cons_iff, hstart, ih]
    | cons c l ihl =>
      obtain ⟨hc, hl⟩ := not_or.1 (fun hm => hl (List.mem_cons.2 hm))
      simp [List.infix_cons_iff, hc, ihl hl]

/-- What stands before the first separator. -/
theorem append_sep_inj : ∀ {l l' t t' : List α}, sep ∉ l → sep ∉ l' →
    l ++ sep :: t = l' ++ sep :: t' → l = l' ∧ t = t'
  | [], [], t, t', _, _, h => ⟨rfl, (List.cons.inj h).2⟩
  | [], c :: l', t, t', _, hl', h => by
    obtain rfl := (List.cons.inj h).1
    exact absurd List.mem_cons_self hl'
  | c :: l, [], t, t', hl, _, h => by
    obtain rfl := (List.cons.inj h).1
    exact absurd List.mem_cons_self hl
  | c :: l, c' :: l', t, t', hl, hl', h => by
    obtain ⟨rfl, htail⟩ := List.cons.inj h
    obtain ⟨rfl, ht⟩ := append_sep_inj (fun h => hl (List.mem_cons_of_mem c h))
      (fun h => hl' (List.mem_cons_of_mem c h)) htail
    exact ⟨rfl, ht⟩

theorem unlines_append (ls ls' : List (List α)) :
    unlines sep (ls ++ ls') = unlines sep ls ++ unlines sep ls' := List.flatMap_append

/-- Two ways to take whole lines off a text take off the same lines, the one perhaps more. -/
theorem unlines_append_eq : ∀ {ls ls' : List (List α)} {t t' : List α}, (∀ l ∈ ls, sep ∉ l) →
    (∀ l ∈ ls', sep ∉ l) → unlines sep ls ++ t = unlines sep ls' ++ t' →
    (∃ more, ls' = ls ++ more ∧ t = unlines sep more ++ t')
      ∨ ∃ more, ls = ls' ++ more ∧ t' = unlines sep more ++ t
  | [], ls', t, t', _, _, h => .inl ⟨ls', rfl, h⟩
  | l :: ls, [], t, t', _, _, h => .inr ⟨l :: ls, rfl, h.symm⟩
  | l :: ls, l' :: ls', t, t', hls, hls', h => by
    obtain ⟨hl, hrest⟩ := List.forall_mem_cons.1 hls
    obtain ⟨hl', hrest'⟩ := List.forall_mem_cons.1 hls'
    rw [unlines_cons, unlines_cons, List.append_assoc, List.append_assoc, List.cons_append,
      List.cons_append] at h
    obtain ⟨rfl, htail⟩ := append_sep_inj hl hl' h
    rcases unlines_append_eq hrest hrest' htail with ⟨more, rfl, ht⟩ | ⟨more, rfl, ht⟩
    · exact .inl ⟨more, rfl, ht⟩
    · exact .inr ⟨more, rfl, ht⟩

/-- A text is whole lines and one that is not ended. -/
theorem exists_lines (sep : α) : ∀ s : List α, ∃ ls tail, (∀ l ∈ ls, sep ∉ l) ∧ sep ∉ tail
    ∧ s = unlines sep ls ++ tail
  | [] => ⟨[], [], by simp, by simp, rfl⟩
  | c :: s => by
    obtain ⟨ls, tail, hls, htail, rfl⟩ := exists_lines sep s
    by_cases hc : c = sep
    · subst hc
      exact ⟨[] :: ls, tail, by simpa using hls, htail, by rw [unlines_cons]; rfl⟩
    · cases ls with
      | nil => exact ⟨[], c :: tail, by simp, by simpa [Ne.symm hc] using htail, rfl⟩
      | cons l ls =>
        obtain ⟨hl, hrest⟩ := List.forall_mem_cons.1 hls
        refine ⟨(c :: l) :: ls, tail, List.forall_mem_cons.2 ⟨?_, hrest⟩, htail, ?_⟩
        · simpa [Ne.symm hc] using hl
        · rw [unlines_cons, unlines_cons]
          rfl

/-- The lines that a cut after `k` characters leaves whole, and what it leaves of the next. -/
def cut : List (List α) → ℕ → List (List α) × List α
  | [], _ => ([], [])
  | l :: ls, k =>
    if l.length < k then
      let rest := cut ls (k - (l.length + 1))
      (l :: rest.1, rest.2)
    else ([], l.take k)

theorem take_unlines :
    ∀ (ls : List (List α)) (k : ℕ),
      (unlines sep ls).take k = unlines sep (cut ls k).1 ++ (cut ls k).2
  | [], k => by simp [unlines, cut]
  | l :: ls, k => by
    rw [unlines_cons, List.take_append, cut]
    split_ifs with h
    · obtain ⟨k', hk⟩ : ∃ k', k - l.length = k' + 1 := ⟨k - l.length - 1, by omega⟩
      rw [unlines_cons, hk, List.take_succ_cons, take_unlines ls k', List.take_of_length_le h.le,
        show k - (l.length + 1) = k' by omega, List.append_assoc, List.cons_append]
    · rw [show k - l.length = 0 by omega, List.take_zero, List.append_nil]
      rfl

/-- The whole lines are the first, and the piece is the start of the line after them. -/
theorem cut_spec :
    ∀ (ls : List (List α)) (k : ℕ), (cut ls k).1 <+: ls
      ∧ ((cut ls k).2 ≠ [] → ∃ l rest, ls = (cut ls k).1 ++ l :: rest ∧ (cut ls k).2 <+: l)
  | [], k => ⟨List.prefix_refl [], fun h => (h rfl).elim⟩
  | l :: ls, k => by
    rw [cut]
    split_ifs with h
    · obtain ⟨hpre, hpiece⟩ := cut_spec ls (k - (l.length + 1))
      refine ⟨List.cons_prefix_cons.2 ⟨rfl, hpre⟩, fun hne => ?_⟩
      obtain ⟨l', rest, hls, hl'⟩ := hpiece hne
      exact ⟨l', rest, congrArg (l :: ·) hls, hl'⟩
    · exact ⟨List.nil_prefix, fun _ => ⟨l, ls, rfl, List.take_prefix k l⟩⟩

variable [DecidableEq α]

/-- The rest of the lines, the current one begun with `line`. -/
def linesFrom (sep : α) : List α → List α → List (List α)
  | line, [] => if line.isEmpty then [] else [line]
  | line, c :: s => if c = sep then line :: linesFrom sep [] s else linesFrom sep (line ++ [c]) s

def lines (sep : α) (s : List α) : List (List α) := linesFrom sep [] s

theorem linesFrom_append (hl : sep ∉ l) (s line : List α) :
    linesFrom sep line (l ++ s) = linesFrom sep (line ++ l) s := by
  induction l generalizing line with
  | nil => rw [List.append_nil, List.nil_append]
  | cons c l ih =>
    have hc : c ≠ sep := fun h => hl (h ▸ List.mem_cons_self)
    rw [List.cons_append, linesFrom, if_neg hc, ih fun h => hl (List.mem_cons_of_mem c h),
      List.append_assoc, List.singleton_append]

/-- A last line without its separator counts if there is anything of it. -/
theorem lines_of_not_mem (hl : sep ∉ l) : lines sep l = if l.isEmpty then [] else [l] := by
  have h := linesFrom_append hl [] []
  rwa [List.append_nil, List.nil_append, linesFrom] at h

theorem lines_unlines_append {ls : List (List α)} (hls : ∀ l ∈ ls, sep ∉ l) (s : List α) :
    lines sep (unlines sep ls ++ s) = ls ++ lines sep s := by
  induction ls with
  | nil => rfl
  | cons l ls ih =>
    have ih := ih fun l' h => hls l' (List.mem_cons_of_mem l h)
    rw [unlines_cons, List.append_assoc, lines, linesFrom_append (hls l List.mem_cons_self),
      List.nil_append, List.cons_append, linesFrom, if_pos rfl, ← lines, ih, List.cons_append]

theorem lines_unlines {ls : List (List α)} (hls : ∀ l ∈ ls, sep ∉ l) :
    lines sep (unlines sep ls) = ls := by
  have h := lines_unlines_append hls []
  rwa [List.append_nil, show lines sep ([] : List α) = [] from rfl, List.append_nil] at h

end Text
