import Praxis.Lib.Effect

/-!
# Observers of a log

An observer has a state of its own and is shown every entry of a program's log as it is written; it
may refuse one with an exception. A program is compared with the same program under observation:
either the two end alike and the observer has taken all entries, or the second ends with the
observer's exception at the first entry refused (`Watch.Shows`). There is one rule for every way of
composing programs.
-/

namespace Effect

/-- An observer of programs over `σ`, which under observation are programs over `τ`. -/
structure Watch (ε σ τ L F : Type) where
  see : L → F → Except ε Unit × F
  log : σ → List L
  /-- The state with an observer. -/
  lift : σ → F → τ
  logged : τ → List L
  seen : τ → F
  /-- What the programs are promised of their states. -/
  calm : σ → Prop

namespace Watch

variable {ε σ τ L F α β : Type} (w : Watch ε σ τ L F)

/-- Shows the observer entries, up to the first that it refuses. -/
def feed : List L → F → Except ε Unit × F
  | [], f => (.ok (), f)
  | e :: entries, f =>
    match w.see e f with
    | (.ok _, f') => feed entries f'
    | (.error err, f') => (.error err, f')

theorem feed_append : ∀ {entries entries' : List L} {f f' : F}, w.feed entries f = (.ok (), f') →
    w.feed (entries ++ entries') f = w.feed entries' f'
  | [], _, f, f', h => by
    cases h
    rfl
  | e :: entries, entries', f, f', h => by
    unfold feed at h
    rw [List.cons_append, feed]
    split at h
    · exact feed_append h
    · cases h

/-- A run under observation that ends at one of the entries: the observer has taken those before and
refuses this one. -/
def Cut (s : σ) (f : F) (entries : List L) (ended : Except ε α × τ) : Prop :=
  ∃ before e after f' err, entries = before ++ e :: after ∧ w.feed before f = (.ok (), f')
    ∧ w.see e f' = (.error err, w.seen ended.2) ∧ ended.1 = .error err
    ∧ w.logged ended.2 = w.log s ++ before ++ [e]

variable {w} in
/-- What would have followed changes nothing about it. -/
theorem Cut.bind {s : σ} {f : F} {entries : List L} {y : Prog ε τ α} {t : τ}
    (h : w.Cut s f entries (y.exec t)) (g : α → Prog ε τ β) (more : List L) :
    w.Cut s f (entries ++ more) ((y >>= g).exec t) := by
  obtain ⟨before, e, after, f', err, hentries, hfeed, hsee, herr, hlogged⟩ := h
  refine ⟨before, e, after ++ more, f', err, by rw [hentries]; simp, hfeed, ?_⟩
  rw [Prog.exec_bind]
  rcases hy : y.exec t with ⟨err₁ | b, t'⟩ <;> rw [hy] at herr hlogged hsee
  · cases herr
    exact ⟨hsee, rfl, hlogged⟩
  · cases herr

/-- The second program is the first under observation. -/
def Shows (x : Prog ε σ α) (y : Prog ε τ α) : Prop :=
  ∀ s f, w.calm s → w.calm (x.exec s).2 ∧ ∃ entries, w.log (x.exec s).2 = w.log s ++ entries
    ∧ ((∃ f', w.feed entries f = (.ok (), f')
          ∧ y.exec (w.lift s f) = ((x.exec s).1, w.lift (x.exec s).2 f'))
        ∨ w.Cut s f entries (y.exec (w.lift s f)))

namespace Shows

variable {w}

/-- What writes no entry. -/
theorem silent {x : Prog ε σ α} {y : Prog ε τ α}
    (h : ∀ s, w.calm s → w.calm (x.exec s).2 ∧ w.log (x.exec s).2 = w.log s
      ∧ ∀ f, y.exec (w.lift s f) = ((x.exec s).1, w.lift (x.exec s).2 f)) : w.Shows x y :=
  fun s f hs => by
  obtain ⟨hcalm, hlog, hexec⟩ := h s hs
  exact ⟨hcalm, [], by rw [hlog, List.append_nil], .inl ⟨f, rfl, hexec f⟩⟩

theorem pure (a : α) : w.Shows (Pure.pure a) (Pure.pure a) :=
  silent fun _ hs => ⟨hs, rfl, fun _ => rfl⟩

theorem ofExcept (e : Except ε α) : w.Shows (Prog.ofExcept e) (Prog.ofExcept e) :=
  silent fun _ hs => ⟨hs, rfl, fun _ => rfl⟩

/-- A look at what the observer leaves alone. -/
theorem look {g : σ → Except ε α} {g' : τ → Except ε α} (h : ∀ s f, g' (w.lift s f) = g s) :
    w.Shows (Prog.of fun s => (g s, s)) (Prog.of fun t => (g' t, t)) :=
  silent fun s hs => ⟨hs, rfl, fun f => by rw [Prog.exec_of, Prog.exec_of, h]⟩

theorem bind {x : Prog ε σ α} {y : Prog ε τ α} {g : α → Prog ε σ β} {g' : α → Prog ε τ β}
    (hx : w.Shows x y) (hg : ∀ a, w.Shows (g a) (g' a)) : w.Shows (x >>= g) (y >>= g') := by
  intro s f hs
  obtain ⟨hcalm, entries, hlog, hend⟩ := hx s f hs
  rcases hexec : x.exec s with ⟨err | a, s'⟩
  · rw [Prog.exec_bind, hexec]
    rw [hexec] at hcalm hlog hend
    refine ⟨hcalm, entries, hlog, ?_⟩
    obtain ⟨f', hfeed, hy⟩ | hcut := hend
    · exact .inl ⟨f', hfeed, by rw [Prog.exec_bind, hy]⟩
    · have := hcut.bind g' []
      rw [List.append_nil] at this
      exact .inr this
  · rw [Prog.exec_bind, hexec]
    rw [hexec] at hcalm hlog hend
    obtain ⟨f', hfeed, hy⟩ | hcut := hend
    · obtain ⟨hcalm', entries', hlog', hend'⟩ := hg a s' f' hcalm
      refine ⟨hcalm', entries ++ entries', by rw [hlog', hlog, List.append_assoc], ?_⟩
      rw [Prog.exec_bind, hy]
      obtain ⟨f'', hfeed', hy'⟩ | ⟨before, e, after, f'', err', rfl, hfeed', hsee, herr, hlogged⟩ :=
        hend'
      · exact .inl ⟨f'', (w.feed_append hfeed).trans hfeed', hy'⟩
      · refine .inr ⟨entries ++ before, e, after, f'', err', by rw [List.append_assoc],
          (w.feed_append hfeed).trans hfeed', hsee, herr, ?_⟩
        rw [hlogged, hlog, List.append_assoc (w.log s)]
    · -- the first run goes on after the entry at which the second has ended
      obtain ⟨hcalm', entries', hlog', -⟩ := hg a s' f hcalm
      exact ⟨hcalm', entries ++ entries', by rw [hlog', hlog, List.append_assoc],
        .inr (hcut.bind g' entries')⟩

end Shows

end Watch

end Effect
