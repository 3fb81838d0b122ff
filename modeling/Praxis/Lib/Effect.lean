import Mathlib.Data.List.Basic

/-!
# Programs that keep a state and may throw

A program takes a state to a value or an exception and to the state it leaves, which an exception
does not undo. `Emits` says what a program that returns has appended to a log of its state, `Keeps`
how the state it leaves stands to the first, and `Sim` that two programs end alike. Each comes with
one rule for every way of composing programs.
-/

namespace Effect

/-- A program over the states `σ` that returns an `α` or throws an `ε`. -/
abbrev Prog (ε σ α : Type) := ExceptT ε (StateM σ) α

namespace Prog

variable {ε σ α β : Type}

/-- The program given by its effect. -/
def of (f : σ → Except ε α × σ) : Prog ε σ α := ExceptT.mk f

/-- Changes the state and returns what the change says. -/
def step (f : σ → α × σ) : Prog ε σ α := of fun s => (.ok (f s).1, (f s).2)

/-- Returns or throws what is known already. -/
def ofExcept (r : Except ε α) : Prog ε σ α := of fun s => (r, s)

/-- The value or exception and the state a program leaves. -/
def exec (x : Prog ε σ α) (s : σ) : Except ε α × σ := x s

@[simp] theorem exec_of (f : σ → Except ε α × σ) (s : σ) : (of f).exec s = f s := rfl

@[simp] theorem exec_step (f : σ → α × σ) (s : σ) :
    (step f : Prog ε σ α).exec s = (.ok (f s).1, (f s).2) := rfl

@[simp] theorem exec_ofExcept (r : Except ε α) (s : σ) :
    (ofExcept r : Prog ε σ α).exec s = (r, s) := rfl

@[simp] theorem exec_pure (a : α) (s : σ) : (pure a : Prog ε σ α).exec s = (.ok a, s) := rfl

theorem exec_bind (x : Prog ε σ α) (f : α → Prog ε σ β) (s : σ) :
    (x >>= f).exec s = match x.exec s with
      | (.ok a, s') => (f a).exec s'
      | (.error e, s') => (.error e, s') := by
  show (ExceptT.bindCont f (x s).1 (x s).2) = _
  unfold exec
  rcases x s with ⟨_ | _, _⟩ <;> rfl

theorem exec_bind_eq_ok {x : Prog ε σ α} {f : α → Prog ε σ β} {s s'' : σ} {b : β} :
    (x >>= f).exec s = (.ok b, s'') ↔
      ∃ a s', x.exec s = (.ok a, s') ∧ (f a).exec s' = (.ok b, s'') := by
  rw [exec_bind]
  rcases x.exec s with ⟨e | a, s'⟩
  · refine ⟨fun h => ?_, fun h => ?_⟩
    · cases h
    · obtain ⟨_, _, h, _⟩ := h
      cases h
  · refine ⟨fun h => ⟨a, s', rfl, h⟩, fun h => ?_⟩
    obtain ⟨_, _, h, hf⟩ := h
    cases h
    exact hf

theorem exec_bind_eq_error {x : Prog ε σ α} {f : α → Prog ε σ β} {s s'' : σ} {e : ε} :
    (x >>= f).exec s = (.error e, s'') ↔ x.exec s = (.error e, s'') ∨
      ∃ a s', x.exec s = (.ok a, s') ∧ (f a).exec s' = (.error e, s'') := by
  rw [exec_bind]
  rcases x.exec s with ⟨e' | a, s'⟩
  · simp
  · simp

end Prog

section Except

variable {ε α β : Type}

/-- A sequence of steps returns if each of them does. -/
theorem except_bind_eq_ok {x : Except ε α} {f : α → Except ε β} {b : β} :
    (x >>= f) = .ok b ↔ ∃ a, x = .ok a ∧ f a = .ok b := by
  cases x with
  | error e =>
    refine ⟨fun h => ?_, fun h => ?_⟩
    · cases h
    · obtain ⟨_, h, _⟩ := h
      cases h
  | ok a =>
    refine ⟨fun h => ⟨a, rfl, h⟩, fun h => ?_⟩
    obtain ⟨_, h, hf⟩ := h
    cases h
    exact hf

end Except

/-! ## Logs -/

section Emits

variable {ε σ τ α β : Type} {log : σ → List τ}

/-- Whenever the program returns, the value and what it has appended to the log satisfy `Q`. -/
def Emits (log : σ → List τ) (x : Prog ε σ α) (Q : α → List τ → Prop) : Prop :=
  ∀ s a s', x.exec s = (.ok a, s') → ∃ es, log s' = log s ++ es ∧ Q a es

namespace Emits

theorem mono {x : Prog ε σ α} {Q R : α → List τ → Prop} (h : Emits log x Q)
    (hQR : ∀ a es, Q a es → R a es) : Emits log x R := fun s a s' hx => by
  obtain ⟨es, hlog, hQ⟩ := h s a s' hx
  exact ⟨es, hlog, hQR _ es hQ⟩

theorem pure {a : α} {Q : α → List τ → Prop} (h : Q a []) :
    Emits log (Pure.pure a : Prog ε σ α) Q := fun s a s' hx => by
  cases hx
  exact ⟨[], (List.append_nil _).symm, h⟩

theorem bind {x : Prog ε σ α} {f : α → Prog ε σ β} {R : α → List τ → Prop}
    {Q : β → List τ → Prop} (hx : Emits log x R)
    (hf : ∀ a es, R a es → Emits log (f a) fun b es' => Q b (es ++ es')) :
    Emits log (x >>= f) Q := fun s b s'' h => by
  obtain ⟨a, s', h, h'⟩ := Prog.exec_bind_eq_ok.1 h
  obtain ⟨es, hlog, hR⟩ := hx s a s' h
  obtain ⟨es', hlog', hQ⟩ := hf a es hR s' b s'' h'
  exact ⟨es ++ es', by rw [hlog', hlog, List.append_assoc], hQ⟩

/-- What appends nothing can be left out of account. -/
theorem bindQuiet {x : Prog ε σ α} {f : α → Prog ε σ β} {Q : β → List τ → Prop}
    (hx : Emits log x fun _ es => es = []) (hf : ∀ a, Emits log (f a) Q) :
    Emits log (x >>= f) Q := hx.bind fun a es hes => by
  subst hes
  exact hf a

/-- A program that leaves the log alone. -/
theorem quiet {x : Prog ε σ α} {Q : α → List τ → Prop}
    (h : ∀ s a s', x.exec s = (.ok a, s') → log s' = log s ∧ Q a []) : Emits log x Q :=
  fun s a s' hx => by
  obtain ⟨hlog, hQ⟩ := h s a s' hx
  exact ⟨[], by rw [hlog, List.append_nil], hQ⟩

theorem step {f : σ → α × σ} {Q : α → List τ → Prop} (hlog : ∀ s, log (f s).2 = log s)
    (h : ∀ s, Q (f s).1 []) : Emits log (Prog.step f : Prog ε σ α) Q :=
  quiet fun s a s' hx => by
    cases hx
    exact ⟨hlog s, h s⟩

theorem ofExcept {r : Except ε α} {Q : α → List τ → Prop} (h : ∀ a, r = .ok a → Q a []) :
    Emits log (Prog.ofExcept r : Prog ε σ α) Q :=
  quiet fun s a s' hx => by
    cases hx
    exact ⟨rfl, h a rfl⟩

end Emits

end Emits

section Keeps

variable {ε σ α β : Type} {r : σ → σ → Prop}

/-- Whether it returns or throws, the program leaves a state that stands in the relation to the
first. -/
def Keeps (r : σ → σ → Prop) (x : Prog ε σ α) : Prop := ∀ s, r s (x.exec s).2

namespace Keeps

theorem pure (hrefl : ∀ s, r s s) (a : α) : Keeps r (Pure.pure a : Prog ε σ α) := hrefl

theorem ofExcept (hrefl : ∀ s, r s s) (e : Except ε α) : Keeps r (Prog.ofExcept e) := hrefl

theorem bind (htrans : ∀ s s' s'', r s s' → r s' s'' → r s s'') {x : Prog ε σ α}
    {f : α → Prog ε σ β} (hx : Keeps r x) (hf : ∀ a, Keeps r (f a)) : Keeps r (x >>= f) := by
  intro s
  have h := hx s
  rw [Prog.exec_bind]
  rcases hexec : x.exec s with ⟨e | a, s'⟩
  · rwa [hexec] at h
  · rw [hexec] at h
    exact htrans s s' _ h (hf a s')

/-- What is made of the value at the end changes nothing. -/
theorem of_map {x : Prog ε σ α} {f : α → β} (h : Keeps r (x >>= fun a => Pure.pure (f a))) :
    Keeps r x := by
  intro s
  have hs := h s
  rw [Prog.exec_bind] at hs
  rcases hexec : x.exec s with ⟨e | a, s'⟩ <;> rwa [hexec] at hs

end Keeps

/-- The program consists of programs that satisfy `D` and of others that leave the state alone, one
after the other. -/
inductive Made (D : ∀ α : Type, Prog ε σ α → Prop) : ∀ {α : Type}, Prog ε σ α → Prop
  | read {α : Type} (g : σ → Except ε α) : Made D (Prog.of fun s => (g s, s))
  | action {α : Type} {x : Prog ε σ α} (h : D α x) : Made D x
  | bind {α β : Type} {x : Prog ε σ α} {f : α → Prog ε σ β} (hx : Made D x)
    (hf : ∀ a, Made D (f a)) : Made D (x >>= f)

namespace Made

variable {D : ∀ α : Type, Prog ε σ α → Prop}

theorem pure (a : α) : Made D (Pure.pure a : Prog ε σ α) := .read fun _ => .ok a

theorem ofExcept (e : Except ε α) : Made D (Prog.ofExcept e : Prog ε σ α) := .read fun _ => e

theorem look (g : σ → α) : Made D (Prog.step fun s => (g s, s) : Prog ε σ α) :=
  .read fun s => .ok (g s)

/-- A program keeps what its parts keep. -/
theorem keeps (hrefl : ∀ s, r s s) (htrans : ∀ s s' s'', r s s' → r s' s'' → r s s'')
    (hD : ∀ (β : Type) (y : Prog ε σ β), D β y → Keeps r y) {x : Prog ε σ α} (h : Made D x) :
    Keeps r x := by
  induction h with
  | read g => exact hrefl
  | action h => exact hD _ _ h
  | bind _ _ ihx ihf => exact .bind htrans ihx ihf

end Made

end Keeps

section Secures

variable {ε σ α β : Type} {I : σ → Prop}

/-- From states with `I` the program leaves one with `I`, whether it returns or throws, and what it
returns satisfies `Q`. -/
def Secures (I : σ → Prop) (x : Prog ε σ α) (Q : α → Prop) : Prop :=
  ∀ s, I s → I (x.exec s).2 ∧ ∀ a s', x.exec s = (.ok a, s') → Q a

namespace Secures

theorem pure {a : α} {Q : α → Prop} (h : Q a) : Secures I (Pure.pure a : Prog ε σ α) Q :=
  fun s hs => ⟨hs, fun a s' hx => by cases hx; exact h⟩

theorem ofExcept {e : Except ε α} {Q : α → Prop} (h : ∀ a, e = .ok a → Q a) :
    Secures I (Prog.ofExcept e : Prog ε σ α) Q :=
  fun s hs => ⟨hs, fun a s' hx => by cases hx; exact h a rfl⟩

/-- A look at the state. -/
theorem look {g : σ → α} {Q : α → Prop} (h : ∀ s, I s → Q (g s)) :
    Secures I (Prog.step fun s => (g s, s) : Prog ε σ α) Q :=
  fun s hs => ⟨hs, fun a s' hx => by cases hx; exact h s hs⟩

theorem bind {x : Prog ε σ α} {f : α → Prog ε σ β} {R : α → Prop} {Q : β → Prop}
    (hx : Secures I x R) (hf : ∀ a, R a → Secures I (f a) Q) : Secures I (x >>= f) Q := by
  intro s hs
  obtain ⟨hI, hR⟩ := hx s hs
  rw [Prog.exec_bind]
  rcases h : x.exec s with ⟨e | a, s'⟩
  · rw [h] at hI
    exact ⟨hI, nofun⟩
  · rw [h] at hI
    exact hf a (hR a s' h) s' hI

/-- A program that keeps the invariant, whatever it returns. -/
theorem of_keeps {x : Prog ε σ α} (h : Keeps (fun s s' => I s → I s') x) :
    Secures I x fun _ => True := fun s hs => ⟨h s hs, fun _ _ _ => trivial⟩

end Secures

end Secures

section Sure

variable {ε σ α β : Type} {I : σ → Prop}

/-- From the state, the program returns. -/
def Returns (x : Prog ε σ α) (s : σ) : Prop := ∃ a s', x.exec s = (.ok a, s')

theorem returns_bind {x : Prog ε σ α} {f : α → Prog ε σ β} {s s' : σ} {a : α}
    (h : x.exec s = (.ok a, s')) : Returns (x >>= f) s ↔ Returns (f a) s' := by
  unfold Returns
  rw [Prog.exec_bind, h]

theorem returns_of {f : σ → Except ε α × σ} {s : σ} : Returns (Prog.of f) s ↔ (f s).1.isOk := by
  unfold Returns
  rw [Prog.exec_of]
  rcases f s with ⟨_ | a, s'⟩ <;> simp [Except.isOk, Except.toBool]

theorem returns_bind_ofExcept {e : Except ε α} {f : α → Prog ε σ β} {s : σ} {a : α}
    (h : e = .ok a) :
    Returns (Prog.ofExcept e >>= f) s ↔ Returns (f a) s :=
  returns_bind (by rw [h]; rfl)

theorem returns_ofExcept {e : Except ε α} {s : σ} : Returns (Prog.ofExcept e) s ↔ e.isOk :=
  returns_of

/-- From states with `I` the program returns, and leaves one with `I`. -/
def Sure (I : σ → Prop) (x : Prog ε σ α) : Prop :=
  ∀ s, I s → ∃ a s', x.exec s = (.ok a, s') ∧ I s'

namespace Sure

theorem returns {x : Prog ε σ α} (h : Sure I x) {s : σ} (hs : I s) : Returns x s := by
  obtain ⟨a, s', hx, -⟩ := h s hs
  exact ⟨a, s', hx⟩

theorem pure (a : α) : Sure I (Pure.pure a : Prog ε σ α) := fun s hs => ⟨a, s, rfl, hs⟩

theorem bind {x : Prog ε σ α} {f : α → Prog ε σ β} (hx : Sure I x) (hf : ∀ a, Sure I (f a)) :
    Sure I (x >>= f) := fun s hs => by
  obtain ⟨a, s', h, hs'⟩ := hx s hs
  obtain ⟨b, s'', h', hs''⟩ := hf a s' hs'
  exact ⟨b, s'', Prog.exec_bind_eq_ok.2 ⟨a, s', h, h'⟩, hs''⟩

theorem step {f : σ → α × σ} (h : ∀ s, I s → I (f s).2) : Sure I (Prog.step f : Prog ε σ α) :=
  fun s hs => ⟨_, _, rfl, h s hs⟩

/-- What comes first decides whether the whole returns. -/
theorem bind_iff {x : Prog ε σ α} {f : α → Prog ε σ β} {s : σ}
    (hx : ∀ a s', x.exec s = (.ok a, s') → I s') (hf : ∀ a, Sure I (f a)) :
    Returns (x >>= f) s ↔ Returns x s := by
  constructor
  · rintro ⟨b, s'', h⟩
    obtain ⟨a, s', h, -⟩ := Prog.exec_bind_eq_ok.1 h
    exact ⟨a, s', h⟩
  · rintro ⟨a, s', h⟩
    exact (returns_bind h).2 ((hf a).returns (hx a s' h))

end Sure

end Sure

/-! ## Two programs side by side -/

section Sim

variable {ε σ τ α β γ δ : Type}

/-- Two runs end alike: both return, with values and states in the relation `Q`, or both throw the
same exception and leave states in the relation `F`. -/
def EndAlike (Q : α → β → σ → τ → Prop) (F : σ → τ → Prop) :
    Except ε α × σ → Except ε β × τ → Prop
  | (.ok a, s), (.ok b, t) => Q a b s t
  | (.error e, s), (.error e', t) => e = e' ∧ F s t
  | _, _ => False

/-- From states in the relation `R`, the programs end alike. -/
def Sim (R : σ → τ → Prop) (x : Prog ε σ α) (y : Prog ε τ β) (Q : α → β → σ → τ → Prop)
    (F : σ → τ → Prop) : Prop :=
  ∀ s t, R s t → EndAlike Q F (x.exec s) (y.exec t)

/-- From states in the relation `R`, the programs end alike if the second leaves a state with
`C`. -/
def SimIf (C : τ → Prop) (R : σ → τ → Prop) (x : Prog ε σ α) (y : Prog ε τ β)
    (Q : α → β → σ → τ → Prop) (F : σ → τ → Prop) : Prop :=
  ∀ s t, R s t → C (y.exec t).2 → EndAlike Q F (x.exec s) (y.exec t)

variable {C : τ → Prop} {R : σ → τ → Prop} {Q : α → β → σ → τ → Prop} {F : σ → τ → Prop}
  {Q' : γ → δ → σ → τ → Prop}

theorem EndAlike.mono {Q₁ : α → β → σ → τ → Prop} {p : Except ε α × σ} {q : Except ε β × τ}
    (h : EndAlike Q F p q) (hQ : ∀ a b s t, Q a b s t → Q₁ a b s t) : EndAlike Q₁ F p q := by
  rcases p with ⟨e | a, s⟩ <;> rcases q with ⟨e' | b, t⟩
  · exact h
  · exact h
  · exact h
  · exact hQ a b s t h

theorem EndAlike.agree {p : Except ε α × σ} {q : Except ε α × τ}
    (h : EndAlike (fun a b s t => a = b ∧ F s t) F p q) : p.1 = q.1 ∧ F p.2 q.2 := by
  rcases p with ⟨e | a, s⟩ <;> rcases q with ⟨e' | b, t⟩
  · exact ⟨congrArg Except.error h.1, h.2⟩
  · exact h.elim
  · exact h.elim
  · exact ⟨congrArg Except.ok h.1, h.2⟩

namespace Sim

theorem pure {a : α} {b : β} (h : ∀ s t, R s t → Q a b s t) :
    Sim R (Pure.pure a : Prog ε σ α) (Pure.pure b : Prog ε τ β) Q F := h

theorem step {f : σ → α × σ} {g : τ → β × τ}
    (h : ∀ s t, R s t → Q (f s).1 (g t).1 (f s).2 (g t).2) :
    Sim R (Prog.step f : Prog ε σ α) (Prog.step g) Q F := h

theorem ofExcept {e : Except ε α} {Q : α → α → σ → τ → Prop} (hF : ∀ s t, R s t → F s t)
    (h : ∀ a, e = .ok a → ∀ s t, R s t → Q a a s t) :
    Sim R (Prog.ofExcept e) (Prog.ofExcept e) Q F := fun s t hst => by
  cases e with
  | error e => exact ⟨rfl, hF s t hst⟩
  | ok a => exact h a rfl s t hst

theorem bindIf {x : Prog ε σ α} {y : Prog ε τ β} {f : α → Prog ε σ γ} {g : β → Prog ε τ δ}
    (hx : Sim R x y Q F) (hf : ∀ a b, SimIf C (Q a b) (f a) (g b) Q' F) :
    SimIf C R (x >>= f) (y >>= g) Q' F := fun s t hst hC => by
  have h := hx s t hst
  rw [Prog.exec_bind] at hC
  rw [Prog.exec_bind, Prog.exec_bind]
  rcases hxs : x.exec s with ⟨e | a, s'⟩ <;> rcases hyt : y.exec t with ⟨e' | b, t'⟩ <;>
    rw [hxs, hyt] at h <;> rw [hyt] at hC
  · exact h
  · exact h.elim
  · exact h.elim
  · exact hf a b s' t' h hC

theorem toIf {x : Prog ε σ α} {y : Prog ε τ β} (h : Sim R x y Q F) : SimIf C R x y Q F :=
  fun s t hst _ => h s t hst

theorem ofIf {x : Prog ε σ α} {y : Prog ε τ β} (h : SimIf (fun _ => True) R x y Q F) :
    Sim R x y Q F := fun s t hst => h s t hst trivial

theorem bind {x : Prog ε σ α} {y : Prog ε τ β} {f : α → Prog ε σ γ} {g : β → Prog ε τ δ}
    (hx : Sim R x y Q F) (hf : ∀ a b, Sim (Q a b) (f a) (g b) Q' F) :
    Sim R (x >>= f) (y >>= g) Q' F := ofIf (hx.bindIf fun a b => (hf a b).toIf)

end Sim

/-- The same value, one that satisfies `P`, and states in the relation `R`. -/
def Same (P : α → Prop) (R : σ → τ → Prop) (a b : α) (s : σ) (t : τ) : Prop :=
  a = b ∧ P a ∧ R s t

namespace Sim

variable {P : α → Prop} {R' : σ → τ → Prop}

theorem bindSame {x : Prog ε σ α} {y : Prog ε τ α} {f : α → Prog ε σ γ} {g : α → Prog ε τ δ}
    (hx : Sim R x y (Same P R') F) (hf : ∀ a, P a → Sim R' (f a) (g a) Q' F) :
    Sim R (x >>= f) (y >>= g) Q' F :=
  hx.bind fun a b s t hst => by
    obtain ⟨rfl, ha, hst⟩ := hst
    exact hf a ha s t hst

theorem bindSameIf {x : Prog ε σ α} {y : Prog ε τ α} {f : α → Prog ε σ γ} {g : α → Prog ε τ δ}
    (hx : Sim R x y (Same P R') F) (hf : ∀ a, P a → SimIf C R' (f a) (g a) Q' F) :
    SimIf C R (x >>= f) (y >>= g) Q' F :=
  hx.bindIf fun a b s t hst => by
    obtain ⟨rfl, ha, hst⟩ := hst
    exact hf a ha s t hst

end Sim

/-- If what follows never restores `C`, what leads up to it may assume `C` too. -/
theorem SimIf.bind {x : Prog ε σ α} {y : Prog ε τ β} {f : α → Prog ε σ γ} {g : β → Prog ε τ δ}
    (hx : SimIf C R x y Q F) (hback : ∀ b, Keeps (fun t t' => C t' → C t) (g b))
    (hf : ∀ a b, SimIf C (Q a b) (f a) (g b) Q' F) :
    SimIf C R (x >>= f) (y >>= g) Q' F := fun s t hst hC => by
  rw [Prog.exec_bind] at hC
  rw [Prog.exec_bind, Prog.exec_bind]
  have h := hx s t hst
  rcases hyt : y.exec t with ⟨e' | b, t'⟩ <;> rw [hyt] at hC h
  · rcases hxs : x.exec s with ⟨e | a, s'⟩ <;> rw [hxs] at h
    · exact h hC
    · exact (h hC).elim
  · rcases hxs : x.exec s with ⟨e | a, s'⟩ <;> rw [hxs] at h
    · exact (h (hback b t' hC)).elim
    · exact hf a b s' t' (h (hback b t' hC)) hC

end Sim

end Effect
