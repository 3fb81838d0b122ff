import Praxis.Lib.Effect
import Mathlib.Data.List.Induction

/-!
# Programs cut into blocks

A program with loops is cut at control points: the block of a point runs on to the next one. A
configuration is what a block leaves, a point or an exception and a state, and a run is the list of
its moves from one configuration to the next. `mem_moves` and `along` are the rules of induction:
what one block keeps holds all along, and what is said of the moves made so far is carried over by
each move. By `toEnd_block` the machine can be compared with the program that was cut.
-/

namespace Effect

section Yields

variable {ε σ α β : Type} {Q : β → Prop}

/-- Whatever the program returns satisfies `Q`. -/
def Yields (x : Prog ε σ β) (Q : β → Prop) : Prop := ∀ s b s', x.exec s = (.ok b, s') → Q b

theorem Yields.pure {b : β} (h : Q b) : Yields (Pure.pure b : Prog ε σ β) Q := fun s b' s' hx => by
  cases hx
  exact h

theorem Yields.bindOf {x : Prog ε σ α} {f : α → Prog ε σ β} {R : α → Prop} (hx : Yields x R)
    (hf : ∀ a, R a → Yields (f a) Q) : Yields (x >>= f) Q := fun s b s' h => by
  obtain ⟨a, s₁, h₁, h₂⟩ := Prog.exec_bind_eq_ok.1 h
  exact hf a (hx s a s₁ h₁) s₁ b s' h₂

theorem Yields.bind {x : Prog ε σ α} {f : α → Prog ε σ β} (h : ∀ a, Yields (f a) Q) :
    Yields (x >>= f) Q :=
  Yields.bindOf (R := fun _ => True) (fun _ _ _ _ => trivial) fun a _ => h a

end Yields

/-- A program over the states `σ` cut at the points `P`. Each block leads to a point of lower
rank. -/
structure Blocks (ε σ P : Type) where
  final : P → Bool
  block : P → Prog ε σ P
  rank : P → ℕ
  rank_lt : ∀ p s q s', final p = false → (block p).exec s = (.ok q, s') → rank q < rank p

namespace Blocks

variable {ε σ P : Type} (B : Blocks ε σ P) {c c' : Except ε P × σ}

/-- The next configuration, if the run goes on. -/
def advance : Except ε P × σ → Option (Except ε P × σ)
  | (.ok p, s) => if B.final p then none else some ((B.block p).exec s)
  | (.error _, _) => none

/-- More than the number of blocks to go. -/
def left : Except ε P × σ → ℕ
  | (.ok p, _) => B.rank p + 1
  | (.error _, _) => 0

/-- Up to `n` moves from `c` on. -/
def trail : ℕ → Except ε P × σ → List ((Except ε P × σ) × (Except ε P × σ))
  | 0, _ => []
  | n + 1, c =>
    match B.advance c with
    | none => []
    | some c' => (c, c') :: trail n c'

/-- The moves of the run from `c` on. -/
def moves (c : Except ε P × σ) : List ((Except ε P × σ) × (Except ε P × σ)) :=
  B.trail (B.left c) c

/-- Where moves from `c` on lead to. -/
def stop : Except ε P × σ → List ((Except ε P × σ) × (Except ε P × σ)) → Except ε P × σ
  | c, [] => c
  | _, m :: ms => stop m.2 ms

/-- Where the run from `c` on ends. -/
def outcome (c : Except ε P × σ) : Except ε P × σ := stop c (B.moves c)

theorem advance_ok {p : P} (s : σ) (h : B.final p = false) :
    B.advance (.ok p, s) = some ((B.block p).exec s) := by
  simp [advance, h]

theorem left_lt (h : B.advance c = some c') : B.left c' < B.left c := by
  obtain ⟨_ | p, s⟩ := c
  · cases h
  · unfold advance at h
    dsimp only at h
    split_ifs at h with hp
    obtain ⟨_ | q, s'⟩ := c'
    · exact Nat.succ_pos _
    · exact Nat.succ_lt_succ (B.rank_lt p s q s' (by simpa using hp) (Option.some.inj h))

theorem trail_of_none (h : B.advance c = none) : ∀ n, B.trail n c = []
  | 0 => rfl
  | n + 1 => by simp only [trail, h]

/-- Any number that is large enough gives the whole run. -/
theorem trail_eq : ∀ {n m : ℕ} {c : Except ε P × σ}, B.left c ≤ n → B.left c ≤ m →
    B.trail n c = B.trail m c
  | n, m, c, hn, hm => by
    rcases h : B.advance c with _ | c'
    · rw [trail_of_none B h, trail_of_none B h]
    · have hlt := B.left_lt h
      obtain ⟨n, rfl⟩ : ∃ n', n = n' + 1 := ⟨n - 1, by omega⟩
      obtain ⟨m, rfl⟩ : ∃ m', m = m' + 1 := ⟨m - 1, by omega⟩
      have ih : B.trail n c' = B.trail m c' := trail_eq (by omega) (by omega)
      simp only [trail, h, ih]

theorem moves_of_none (h : B.advance c = none) : B.moves c = [] := B.trail_of_none h _

theorem moves_of_some (h : B.advance c = some c') : B.moves c = (c, c') :: B.moves c' := by
  have hlt := B.left_lt h
  obtain ⟨n, hn⟩ : ∃ n, B.left c = n + 1 := ⟨B.left c - 1, by omega⟩
  rw [moves, hn, moves, B.trail_eq (Nat.le_refl (B.left c')) (show B.left c' ≤ n by omega)]
  simp only [trail, h]

/-- Induction along a run, from its end. -/
theorem induct {motive : Except ε P × σ → Prop} (stop : ∀ c, B.advance c = none → motive c)
    (step : ∀ c c', B.advance c = some c' → motive c' → motive c) (c : Except ε P × σ) :
    motive c := by
  induction h : B.left c using Nat.strongRecOn generalizing c with
  | ind n ih =>
    rcases hc : B.advance c with _ | c'
    · exact stop c hc
    · exact step c c' hc (ih (B.left c') (h ▸ B.left_lt hc) c' rfl)

theorem outcome_of_none (h : B.advance c = none) : B.outcome c = c := by
  rw [outcome, B.moves_of_none h, stop]

theorem outcome_of_some (h : B.advance c = some c') : B.outcome c = B.outcome c' := by
  rw [outcome, B.moves_of_some h, stop, outcome]

theorem stop_append :
    ∀ (ms ms' : List ((Except ε P × σ) × (Except ε P × σ))) (c : Except ε P × σ),
      stop c (ms ++ ms') = stop (stop c ms) ms'
  | [], _, _ => rfl
  | m :: ms, ms', _ => stop_append ms ms' m.2

/-- The moves up to somewhere and from there on. -/
theorem moves_append :
    ∀ {ms ms' : List ((Except ε P × σ) × (Except ε P × σ))} {c : Except ε P × σ},
      B.moves c = ms ++ ms' → B.moves (stop c ms) = ms'
  | [], _, _, h => h
  | m :: ms, ms', c, h => by
    rcases hc : B.advance c with _ | c'
    · rw [B.moves_of_none hc] at h
      cases h
    · rw [B.moves_of_some hc, List.cons_append] at h
      obtain ⟨rfl, htail⟩ := List.cons.inj h
      exact moves_append (c := c') htail

/-- Every move is made by a block, and what one block keeps holds all along. -/
theorem mem_moves {I : Except ε P × σ → Prop}
    (hstep : ∀ c c', I c → B.advance c = some c' → I c') {c : Except ε P × σ} (hI : I c) :
    ∀ m ∈ B.moves c, I m.1 ∧ I m.2 ∧ B.advance m.1 = some m.2 := by
  induction c using B.induct with
  | stop c h =>
    rw [B.moves_of_none h]
    simp
  | step c c' h ih =>
    rw [B.moves_of_some h]
    intro m hm
    have hI' := hstep c c' hI h
    rcases List.mem_cons.1 hm with rfl | hm
    · exact ⟨hI, hI', h⟩
    · exact ih hI' m hm

theorem advance_of_mem {c : Except ε P × σ} {m : (Except ε P × σ) × (Except ε P × σ)}
    (h : m ∈ B.moves c) : B.advance m.1 = some m.2 :=
  (B.mem_moves (I := fun _ => True) (fun _ _ _ _ => trivial) trivial m h).2.2

/-- The first move, if there is one. -/
theorem advance_of_head {c : Except ε P × σ} {m : (Except ε P × σ) × (Except ε P × σ)}
    (h : m ∈ (B.moves c).head?) : B.advance c = some m.2 := by
  rcases hc : B.advance c with _ | c'
  · rw [B.moves_of_none hc] at h
    cases h
  · rw [B.moves_of_some hc] at h
    obtain rfl := Option.some.inj h
    rfl

/-- The move after the first ones starts where they lead. -/
theorem advance_stop {ms ms' : List ((Except ε P × σ) × (Except ε P × σ))}
    {m : (Except ε P × σ) × (Except ε P × σ)} {c : Except ε P × σ}
    (h : B.moves c = ms ++ m :: ms') : m.1 = stop c ms ∧ B.advance (stop c ms) = some m.2 := by
  have hrest := B.moves_append h
  rcases hc : B.advance (stop c ms) with _ | c'
  · rw [B.moves_of_none hc] at hrest
    cases hrest
  · rw [B.moves_of_some hc] at hrest
    obtain ⟨rfl, -⟩ := List.cons.inj hrest
    exact ⟨rfl, rfl⟩

/-- What holds before the first move and is carried over by each holds after any number of them. -/
theorem along {Q : List ((Except ε P × σ) × (Except ε P × σ)) → Except ε P × σ → Prop}
    {c : Except ε P × σ} (hstart : Q [] c)
    (hmove : ∀ ms d d', Q ms d → B.advance d = some d' → Q (ms ++ [(d, d')]) d')
    {ms : List ((Except ε P × σ) × (Except ε P × σ))} (h : ms <+: B.moves c) :
    Q ms (stop c ms) := by
  induction ms using List.reverseRecOn with
  | nil => exact hstart
  | append_singleton ms m ih =>
    obtain ⟨rest, hrest⟩ := h
    rw [List.append_assoc, List.singleton_append] at hrest
    obtain ⟨hm, hadvance⟩ := B.advance_stop hrest.symm
    have hQ := hmove ms _ _ (ih ⟨m :: rest, hrest⟩) hadvance
    rw [stop_append]
    rwa [← hm] at hQ

/-- Two programs cut at the same points make the same run if they make each of its moves. -/
theorem moves_congr {B' : Blocks ε σ P} (hfinal : ∀ p, B'.final p = B.final p)
    (h : ∀ m ∈ B.moves c, B'.advance m.1 = B.advance m.1) : B'.moves c = B.moves c := by
  induction c using B.induct with
  | stop c hstop =>
    have hstop' : B'.advance c = none := by
      obtain ⟨_ | p, s⟩ := c
      · rfl
      · unfold advance at hstop ⊢
        dsimp only at hstop ⊢
        rw [hfinal]
        split_ifs at hstop ⊢
        rfl
    rw [B.moves_of_none hstop, B'.moves_of_none hstop']
  | step c c' hstep ih =>
    rw [B.moves_of_some hstep] at h ⊢
    obtain ⟨hfirst, hrest⟩ := List.forall_mem_cons.1 h
    rw [B'.moves_of_some (hfirst.trans hstep), ih hrest]

/-- A run ends without an exception exactly if none of its moves throws one. -/
theorem outcome_isOk_iff (hc : c.1.isOk) :
    (B.outcome c).1.isOk ↔ ∀ m ∈ B.moves c, m.2.1.isOk := by
  induction c using B.induct with
  | stop c h =>
    rw [B.outcome_of_none h, B.moves_of_none h]
    simpa using hc
  | step c c' h ih =>
    rw [B.outcome_of_some h, B.moves_of_some h, List.forall_mem_cons]
    obtain ⟨_ | q, s'⟩ := c'
    · rw [B.outcome_of_none rfl]
      simp [Except.isOk, Except.toBool]
    · rw [ih rfl]
      simp [Except.isOk, Except.toBool]

/-! ## The program that was cut -/

/-- The program that runs from a point to the end. -/
def toEnd (p : P) : Prog ε σ P := .of fun s => B.outcome (.ok p, s)

theorem toEnd_final {p : P} (h : B.final p = true) : B.toEnd p = pure p :=
  funext fun s => B.outcome_of_none (by simp [advance, h])

theorem toEnd_block {p : P} (h : B.final p = false) : B.toEnd p = B.block p >>= B.toEnd := by
  refine funext fun s => ?_
  show B.outcome (.ok p, s) = (B.block p >>= B.toEnd).exec s
  rw [B.outcome_of_some (B.advance_ok s h), Prog.exec_bind]
  rcases (B.block p).exec s with ⟨e | q, s'⟩
  · exact B.outcome_of_none rfl
  · rfl

/-- What every block keeps is kept to the end. -/
theorem keeps_toEnd {r : σ → σ → Prop} (hrefl : ∀ s, r s s)
    (htrans : ∀ s s' s'', r s s' → r s' s'' → r s s'') (hblock : ∀ p, Keeps r (B.block p)) (p : P) :
    Keeps r (B.toEnd p) := by
  have houtcome : ∀ c : Except ε P × σ, r c.2 (B.outcome c).2 := fun c => by
    induction c using B.induct with
    | stop c h =>
      rw [B.outcome_of_none h]
      exact hrefl c.2
    | step c c' h ih =>
      rw [B.outcome_of_some h]
      obtain ⟨_ | p, s⟩ := c
      · cases h
      · unfold advance at h
        dsimp only at h
        split_ifs at h
        obtain rfl := Option.some.inj h
        exact htrans _ _ _ (hblock p s) ih
  exact fun s => houtcome (.ok p, s)

end Blocks

end Effect
