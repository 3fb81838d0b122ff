import Mathlib.Data.List.Infix

/-!
# Streams cut into frames

A splitter takes the first frame off a buffer, if there is a whole one, and takes off the same frame
when more has come in behind it. So the frames of a stream do not depend on the chunks in which it
comes in (`feeds_nil`). `bySeparator` is the splitter that searches for a separator.
-/

namespace Framing

variable {α β : Type}

/-! ## Searching -/

section Find

variable [DecidableEq α] {pat s : List α} {n : ℕ}

/-- Where the pattern stands for the first time. -/
def find (pat : List α) : List α → Option ℕ
  | [] => if pat.isPrefixOf [] then some 0 else none
  | c :: s => if pat.isPrefixOf (c :: s) then some 0 else (find pat s).map (· + 1)

theorem le_length_of_find : ∀ {s : List α} {n : ℕ}, find pat s = some n →
    n + pat.length ≤ s.length
  | [], n, h => by
    unfold find at h
    split_ifs at h with hp
    obtain rfl := Option.some.inj h
    have hle := (List.isPrefixOf_iff_prefix.1 hp).length_le
    omega
  | c :: s, n, h => by
    unfold find at h
    split_ifs at h with hp
    · obtain rfl := Option.some.inj h
      have hle := (List.isPrefixOf_iff_prefix.1 hp).length_le
      omega
    · obtain ⟨m, hm, rfl⟩ := Option.map_eq_some_iff.1 h
      have hle := le_length_of_find hm
      rw [List.length_cons]
      omega

/-- What stands before the pattern, the pattern, and what follows it. -/
theorem take_append_drop_of_find : ∀ {s : List α} {n : ℕ}, find pat s = some n →
    s.take n ++ pat ++ s.drop (n + pat.length) = s
  | [], n, h => by
    unfold find at h
    split_ifs at h with hp
    rw [List.prefix_nil.1 (List.isPrefixOf_iff_prefix.1 hp)]
    simp
  | c :: s, n, h => by
    unfold find at h
    split_ifs at h with hp
    · obtain rfl := Option.some.inj h
      obtain ⟨t, ht⟩ := List.isPrefixOf_iff_prefix.1 hp
      rw [← ht]
      simp
    · obtain ⟨m, hm, rfl⟩ := Option.map_eq_some_iff.1 h
      have ih := take_append_drop_of_find hm
      rw [show m + 1 + pat.length = m + pat.length + 1 by omega, List.take_succ_cons,
        List.drop_succ_cons, List.cons_append, List.cons_append, ih]

theorem find_eq_none_iff : ∀ {s : List α}, find pat s = none ↔ ¬ pat <:+: s
  | [] => by
    unfold find
    rw [List.infix_nil]
    split_ifs with hp
    · simp [List.prefix_nil.1 (List.isPrefixOf_iff_prefix.1 hp)]
    · simpa using hp
  | c :: s => by
    unfold find
    rw [List.infix_cons_iff, not_or, ← find_eq_none_iff, ← List.isPrefixOf_iff_prefix]
    split_ifs with hp
    · simp [hp]
    · simp [hp]

/-- Where the pattern comes to stand for the first time. -/
theorem find_of_not_infix : ∀ {p : List α}, ¬ pat <:+: p ++ pat.dropLast → ∀ t,
    find pat (p ++ pat ++ t) = some p.length
  | [], _, t => by
    have hprefix : pat.isPrefixOf (pat ++ t) = true :=
      List.isPrefixOf_iff_prefix.2 (List.prefix_append pat t)
    rw [List.nil_append]
    rcases hs : pat ++ t with _ | ⟨c, s⟩
    all_goals
      rw [hs] at hprefix
      rw [find, if_pos hprefix]
      rfl
  | c :: p, h, t => by
    have hnot : ¬ pat <+: c :: (p ++ pat ++ t) := fun hp => by
      have hp' : c :: p ++ pat.dropLast <+: c :: (p ++ pat ++ t) := by
        rw [List.cons_append, List.append_assoc]
        exact (List.prefix_cons_inj c).2 ((List.prefix_append_right_inj p).2
          ((List.dropLast_prefix pat).trans (List.prefix_append pat t)))
      refine h (List.prefix_of_prefix_length_le hp hp' ?_).isInfix
      simp only [List.length_append, List.length_cons, List.length_dropLast]
      omega
    have hrest : ¬ pat <:+: p ++ pat.dropLast := fun hi => h (List.infix_cons hi)
    have ih := find_of_not_infix hrest t
    rw [List.cons_append, List.cons_append, find, if_neg, ih]
    · rfl
    · rwa [List.isPrefixOf_iff_prefix]

omit [DecidableEq α] in
theorem not_infix_dropLast (hpat : pat ≠ []) : ¬ pat <:+: pat.dropLast := fun h => by
  have hle := h.length_le
  have hpos := List.length_pos_of_ne_nil hpat
  rw [List.length_dropLast] at hle
  omega

/-- There is no pattern before the one that is found. -/
theorem not_infix_of_find (hpat : pat ≠ []) : ∀ {s : List α} {n : ℕ}, find pat s = some n →
    ¬ pat <:+: s.take n ++ pat.dropLast
  | [], n, _ => by
    rw [List.take_nil, List.nil_append]
    exact not_infix_dropLast hpat
  | c :: s, n, h => by
    unfold find at h
    split_ifs at h with hp
    · obtain rfl := Option.some.inj h
      rw [List.take_zero, List.nil_append]
      exact not_infix_dropLast hpat
    · obtain ⟨m, hm, rfl⟩ := Option.map_eq_some_iff.1 h
      have hprefix : s.take m ++ pat.dropLast <+: s := by
        have hsplit := take_append_drop_of_find hm
        refine List.IsPrefix.trans ?_ (hsplit ▸ List.prefix_append (s.take m ++ pat) _)
        exact (List.prefix_append_right_inj _).2 (List.dropLast_prefix pat)
      rw [List.take_succ_cons, List.cons_append, List.infix_cons_iff, not_or]
      refine ⟨fun h => hp (List.isPrefixOf_iff_prefix.2 (h.trans ?_)), not_infix_of_find hpat hm⟩
      exact (List.prefix_cons_inj c).2 hprefix

/-- The first of several separators. -/
theorem find_singleton {c : α} : ∀ {l : List α} (t : List α), c ∉ l →
    find [c] (l ++ c :: t) = some l.length
  | [], t, _ => by
    rw [List.nil_append, find, if_pos (by simp)]
    rfl
  | d :: l, t, h => by
    have hd : c ≠ d := fun hcd => h (hcd ▸ List.mem_cons_self)
    rw [List.cons_append, find, if_neg (by simp [hd]),
      find_singleton t fun hl => h (List.mem_cons_of_mem d hl)]
    rfl

/-- A pattern that has been found is found there again when more follows. -/
theorem find_append : ∀ {s : List α} {n : ℕ}, find pat s = some n → ∀ t,
    find pat (s ++ t) = some n
  | [], n, h, t => by
    unfold find at h
    split_ifs at h with hp
    obtain rfl := List.prefix_nil.1 (List.isPrefixOf_iff_prefix.1 hp)
    rw [← h]
    cases t <;> rfl
  | c :: s, n, h, t => by
    have hlength := le_length_of_find h
    unfold find at h
    rw [List.cons_append]
    unfold find
    split_ifs at h with hp
    · rw [if_pos, h]
      exact List.isPrefixOf_iff_prefix.2
        ((List.isPrefixOf_iff_prefix.1 hp).trans (List.prefix_append (c :: s) t))
    · obtain ⟨m, hm, rfl⟩ := Option.map_eq_some_iff.1 h
      rw [if_neg, find_append hm t]
      · rfl
      · intro hp'
        refine hp (List.isPrefixOf_iff_prefix.2 ?_)
        refine List.prefix_of_prefix_length_le (List.isPrefixOf_iff_prefix.1 hp')
          (List.prefix_append (c :: s) t) ?_
        omega

end Find

/-! ## Splitters -/

/-- `next` takes the first frame off a buffer and leaves what follows it. -/
structure Splitter (α β : Type) where
  next : List α → Option (β × List α)
  shrinks : ∀ {s f rest}, next s = some (f, rest) → rest.length < s.length
  stable : ∀ {s f rest}, next s = some (f, rest) → ∀ t, next (s ++ t) = some (f, rest ++ t)

namespace Splitter

variable (S : Splitter α β) {s rest : List α} {f : β}

/-- Takes frames off as long as there are whole ones. The rest is returned with them. -/
def drain (s : List α) : List β × List α :=
  match _h : S.next s with
  | none => ([], s)
  | some (f, rest) => (f :: (drain rest).1, (drain rest).2)
termination_by s.length
decreasing_by all_goals exact S.shrinks ‹_›

theorem drain_of_none (h : S.next s = none) : S.drain s = ([], s) := by
  unfold drain
  split
  · rfl
  · next f rest h' =>
    rw [h] at h'
    cases h'

theorem drain_of_some (h : S.next s = some (f, rest)) :
    S.drain s = (f :: (S.drain rest).1, (S.drain rest).2) := by
  rw [drain]
  split
  · next h' =>
    rw [h] at h'
    cases h'
  · next f' rest' h' =>
    rw [h] at h'
    obtain ⟨rfl, rfl⟩ := Prod.mk.inj (Option.some.inj h')
    rfl

theorem drain_nil : S.drain [] = ([], []) := by
  rcases h : S.next [] with _ | ⟨f, rest⟩
  · exact S.drain_of_none h
  · exact absurd (S.shrinks h) (Nat.not_lt_zero _)

/-- Induction over the frames of a buffer. -/
theorem induct {motive : List α → Prop} (stop : ∀ s, S.next s = none → motive s)
    (step : ∀ s f rest, S.next s = some (f, rest) → motive rest → motive s) (s : List α) :
    motive s := by
  induction hn : s.length using Nat.strongRecOn generalizing s with
  | ind n ih =>
    rcases h : S.next s with _ | ⟨f, rest⟩
    · exact stop s h
    · exact step s f rest h (ih rest.length (hn ▸ S.shrinks h) rest rfl)

/-- There is no whole frame in what is left. -/
theorem next_drain (s : List α) : S.next (S.drain s).2 = none := by
  induction s using S.induct with
  | stop s h => rwa [S.drain_of_none h]
  | step s f rest h ih => rwa [S.drain_of_some h]

/-- What comes in behind a buffer is drained with what is left of it. -/
theorem drain_append (s t : List α) :
    S.drain (s ++ t)
      = ((S.drain s).1 ++ (S.drain ((S.drain s).2 ++ t)).1, (S.drain ((S.drain s).2 ++ t)).2) := by
  induction s using S.induct with
  | stop s h => rw [S.drain_of_none h, List.nil_append]
  | step s f rest h ih =>
    rw [S.drain_of_some h, S.drain_of_some (S.stable h t), ih, List.cons_append]

/-- The chunks of a stream come in behind the buffer, one after the other. -/
def feeds : List α → List (List α) → List β × List α
  | buffer, [] => ([], buffer)
  | buffer, chunk :: chunks =>
    let drained := S.drain (buffer ++ chunk)
    let fed := feeds drained.2 chunks
    (drained.1 ++ fed.1, fed.2)

theorem feeds_of_none :
    ∀ {chunks : List (List α)} {buffer : List α}, S.next buffer = none →
      S.feeds buffer chunks = S.drain (buffer ++ chunks.flatten)
  | [], buffer, h => by
    rw [List.flatten_nil, List.append_nil, S.drain_of_none h]
    rfl
  | chunk :: chunks, buffer, _ => by
    rw [List.flatten_cons, ← List.append_assoc, S.drain_append, feeds,
      feeds_of_none (S.next_drain _)]

/-- However a stream is cut into chunks, it gives the frames that it gives as a whole. -/
theorem feeds_nil (chunks : List (List α)) : S.feeds [] chunks = S.drain chunks.flatten := by
  rcases h : S.next [] with _ | ⟨f, rest⟩
  · exact S.feeds_of_none h
  · exact absurd (S.shrinks h) (Nat.not_lt_zero _)

/-- One more chunk. -/
theorem drain_flatten_snoc (chunks : List (List α)) (chunk : List α) :
    S.drain (chunks ++ [chunk]).flatten
      = ((S.drain chunks.flatten).1 ++ (S.drain ((S.drain chunks.flatten).2 ++ chunk)).1,
          (S.drain ((S.drain chunks.flatten).2 ++ chunk)).2) := by
  rw [List.flatten_append, List.flatten_singleton, S.drain_append]

/-- A frame is what stands before a separator. -/
def bySeparator [DecidableEq α] (sep : List α) (hsep : sep ≠ []) (read : List α → β) :
    Splitter α β where
  next := fun s => (find sep s).map fun pos => (read (s.take pos), s.drop (pos + sep.length))
  shrinks := fun {s f rest} h => by
    obtain ⟨pos, hpos, h⟩ := Option.map_eq_some_iff.1 h
    obtain ⟨-, rfl⟩ := Prod.mk.inj h
    have hle := le_length_of_find hpos
    have hlength := List.length_pos_of_ne_nil hsep
    rw [List.length_drop]
    omega
  stable := fun {s f rest} h t => by
    obtain ⟨pos, hpos, h⟩ := Option.map_eq_some_iff.1 h
    obtain ⟨rfl, rfl⟩ := Prod.mk.inj h
    have hle := le_length_of_find hpos
    rw [find_append hpos t, Option.map_some, List.take_append_of_le_length (by omega),
      List.drop_append_of_le_length hle]

end Splitter

end Framing
