import Praxis.Proofs.Tally

/-!
# Escalation

Where a chore goes depends on the pin and on the small tier's statistics. Once one has gone to the
large tier, everything is counted for the large tier, so these stay as they are and every later
chore goes there too.
-/

namespace Praxis

namespace ModelCascade

/-- What decides where chores go: the pin, the threshold and the small tier's statistics. -/
def small (cascade : ModelCascade) : Bool × ℚ × Option TierState :=
  (cascade.chore_pinned, cascade.missing_upgrade_threshold, cascade.tiers.lookup .Small)

theorem route_for_congr {cascade cascade' : ModelCascade} (h : cascade'.small = cascade.small)
    (role : Role) : cascade'.route_for role = cascade.route_for role := by
  obtain ⟨hpinned, hrest⟩ := Prod.mk.inj h
  obtain ⟨hthreshold, hlookup⟩ := Prod.mk.inj hrest
  have hrate : cascade'.divergence_rate .Small = cascade.divergence_rate .Small := by
    unfold divergence_rate
    rw [hlookup]
  unfold route_for
  rw [hpinned, hthreshold, hlookup, hrate]

theorem small_record_outcome (cascade : ModelCascade) (diverged : Bool) :
    (cascade.record_outcome .Large diverged).small = cascade.small := by
  simp only [small, record_outcome, AList.lookup_insert_ne (show Tier.Small ≠ .Large by simp)]

theorem small_record_failure (cascade : ModelCascade) :
    (cascade.record_failure .Large).small = cascade.small := by
  simp only [small, record_failure, AList.lookup_insert_ne (show Tier.Small ≠ .Large by simp)]
  simp

end ModelCascade

namespace Orchestrator

open Effect (Prog Blocks)

variable {W U E α : Type} {M : Machine W U} {task : Str} {budget : Budget}

/-- The tier that a chore completion is routed to, of a move that asks for one. -/
def choreRoute (m : Config W U E × Config W U E) : Option Tier :=
  match m.1 with
  | (.ok (.asking _), s) => some (s.self.cascade.route_for .Chore)
  | _ => none

/-- What is counted at the point is counted for the large tier. -/
def Point.large : Point → Prop
  | answered _ chosen_tier _ | reviewing _ chosen_tier _ _ | calling _ chosen_tier _
  | called _ chosen_tier _ _ => chosen_tier = .Large
  | reviewed _ chosen_tier _ decision_tier _ => chosen_tier = .Large ∧ decision_tier = .Large
  | _ => True

theorem Point.Next.large {p q : Point} (h : Point.Next M task budget p q)
    (hsilent : p.silent = true) (hp : p.large) : q.large := by
  cases h with
  | answer | review => cases hsilent
  | propose => exact hp
  | stand | confirm | override => exact hp.1
  | call => exact hp
  | _ => trivial

/-- The part of the core that decides where chores go. -/
abbrev smallOf (c : Core W U E) : Bool × ℚ × Option TierState := c.cascade.small

theorem steady_modify_large {f : ModelCascade → ModelCascade}
    (h : ∀ cascade, (f cascade).small = cascade.small) :
    Steady smallOf (modifySelf fun self => { self with cascade := f self.cascade } :
      RunM W U E Unit) := fun s => h s.self.cascade

theorem steady_record_result_large {views : List CallView} {rec : ToolExecutionRecord} :
    Steady smallOf (record_result M .Large views rec : RunM W U E _) := by
  unfold record_result
  refine steady_bind (Still.steady (still_modifySelf fun s => ?_)) fun _ => ?_
  · cases rec.result.ok <;> rfl
  refine steady_bind (Still.steady still_record) fun _ => steady_bind ?_ fun _ => ?_
  · cases rec.result.ok with
    | true => exact fun _ => rfl
    | false => exact steady_modify_large ModelCascade.small_record_failure
  refine steady_bind (Still.steady still_cache_result) fun _ => ?_
  refine steady_bind (Still.steady still_ofExcept) fun body => ?_
  exact steady_bind (fun _ => rfl) fun id => Still.steady still_pure

theorem steady_record_results_large {views : List CallView} :
    ∀ {records : List ToolExecutionRecord} {turn_ctx : TurnContext} {messages : Messages},
      Steady smallOf (record_results M .Large views records turn_ctx messages : RunM W U E _)
  | [], _, _ => Still.steady still_pure
  | _ :: _, _, _ => steady_bind steady_record_result_large fun _ => steady_record_results_large

/-- Where everything is counted for the large tier, a block that does not ask a provider leaves
the small tier alone. -/
theorem steady_block_large {p : Point} (hsilent : p.silent = true) (hp : p.large) :
    Steady smallOf (p.block M task budget : RunM W U E Point) := by
  cases p with
  | asking | reviewing => cases hsilent
  | answered l chosen_tier response =>
    exact steady_answered (fun _ _ _ => rfl) l chosen_tier response
  | reviewed l chosen_tier calls decision_tier response =>
    obtain ⟨-, rfl⟩ := hp
    cases response with
    | error err =>
      exact steady_bind (steady_modify_large ModelCascade.small_record_failure) fun _ =>
        Still.steady still_pure
    | ok resp =>
      unfold Point.block
      dsimp only
      rcases overridePlan resp.outcome.plan with _ | override_plan
      · exact Still.steady still_pure
      · refine steady_bind (Still.steady still_record) fun _ => steady_bind ?_ fun _ => ?_
        · exact steady_modify_large fun cascade => cascade.small_record_outcome true
        · split_ifs
          · exact steady_bind (Still.steady still_record) fun _ => Still.steady still_pure
          · exact Still.steady still_pure
  | called l chosen_tier views records =>
    obtain rfl : chosen_tier = .Large := hp
    exact steady_bind steady_record_results_large fun _ =>
      steady_bind (fun _ => rfl) fun _ => Still.steady still_pure
  | start | head | calling | observing | leaving | ended => exact Still.steady (still_block rfl)

theorem small_observed {response : Result ModelResponse} {cascade : ModelCascade} :
    (observed .Large response cascade).small = cascade.small := by
  cases response with
  | error err => exact cascade.small_record_failure
  | ok resp => exact cascade.small_record_outcome _

/-- A completion that is routed to the large tier is counted for it. -/
theorem small_asked {role : Role} {messages : Messages}
    {answer : Tier → Result ModelResponse → Point} {s s' : Sys W U E} {r : Except Exn Point}
    (hroute : s.self.cascade.route_for role = .Large)
    (h : (complete_and_observe role messages >>= fun a => pure (answer a.1 a.2)).exec s = (r, s')) :
    s'.self.cascade.small = s.self.cascade.small
      ∧ ∀ p, r = .ok p → ∃ response, p = answer .Large response := by
  rcases core_asked h with ⟨e, rfl, hcore⟩ | ⟨response, rfl, hcore⟩
  · exact ⟨congrArg smallOf hcore, fun p hp => nomatch hp⟩
  · rw [hroute] at hcore ⊢
    refine ⟨(congrArg smallOf hcore).trans small_observed, fun p hp => ?_⟩
    cases hp
    exact ⟨response, rfl⟩

/-- Since the state `s`, everything has been counted for the large tier. -/
structure Escalated (s : Sys W U E) (d : Config W U E) : Prop where
  small : d.2.self.cascade.small = s.self.cascade.small
  large : ∀ p, d.1 = .ok p → p.large

theorem Escalated.move {s : Sys W U E} {d d' : Config W U E} (h : Escalated s d)
    (hroute : s.self.cascade.route_for .Chore = .Large)
    (hadvance : (control M task budget).advance d = some d') : Escalated s d' := by
  obtain ⟨_ | p, s₁⟩ := d
  · cases hadvance
  obtain ⟨r, s₂⟩ := d'
  have hexec := (exec_of_advance hadvance).2
  have hp := h.large p rfl
  by_cases hsilent : p.silent = true
  · refine ⟨((steady_block_large hsilent hp).exec hexec).trans h.small, ?_⟩
    rintro q rfl
    exact (next_of_advance hadvance).large hsilent hp
  · cases p with
    | asking l =>
      obtain ⟨hsmall, hnext⟩ :=
        small_asked ((ModelCascade.route_for_congr h.small _).trans hroute) hexec
      refine ⟨hsmall.trans h.small, fun q hq => ?_⟩
      obtain ⟨response, rfl⟩ := hnext q hq
      exact rfl
    | reviewing l chosen_tier plan calls =>
      have hdecision : s₁.self.cascade.route_for .Decision = .Large := by
        rw [ModelCascade.route_for, if_pos rfl]
      obtain ⟨hsmall, hnext⟩ := small_asked hdecision hexec
      refine ⟨hsmall.trans h.small, fun q hq => ?_⟩
      obtain ⟨response, rfl⟩ := hnext q hq
      exact ⟨hp, rfl⟩
    | _ => exact absurd rfl hsilent

theorem route_of_choreRoute {m : Config W U E × Config W U E} {tier : Tier}
    (h : choreRoute m = some tier) :
    (∃ l, m.1.1 = .ok (.asking l)) ∧ m.1.2.self.cascade.route_for .Chore = tier := by
  obtain ⟨⟨r, s⟩, d⟩ := m
  unfold choreRoute at h
  split at h
  · next l s' heq =>
    cases heq
    exact ⟨⟨l, rfl⟩, Option.some.inj h⟩
  · cases h

/-- Over the runs of a session, from a chore completion that is routed to the large tier on, the
pin and the small tier's statistics stay as they are, and every later chore completion is routed
to the large tier. -/
theorem escalation_permanent (M : Machine W U) (runs : List (Str × Budget)) (s : Sys W U E) :
    (∀ m ∈ sessionMoves M runs s, choreRoute m = some .Large →
        m.2.2.self.cascade.small = m.1.2.self.cascade.small)
      ∧ (sessionMoves M runs s).Pairwise fun m m' => choreRoute m = some .Large →
          m'.2.2.self.cascade.small = m.1.2.self.cascade.small
            ∧ ∀ tier ∈ choreRoute m', tier = .Large := by
  have hall := along_session (M := M)
    (Q := fun ms d => (∀ m ∈ ms, choreRoute m = some .Large →
        m.2.2.self.cascade.small = m.1.2.self.cascade.small ∧ Escalated m.1.2 d)
      ∧ ms.Pairwise fun m m' => choreRoute m = some .Large →
          m'.2.2.self.cascade.small = m.1.2.self.cascade.small
            ∧ ∀ tier ∈ choreRoute m', tier = .Large) (s := s)
    ⟨by simp, .nil⟩ ?_ ?_ (List.prefix_refl (sessionMoves M runs s))
  · exact ⟨fun m hm hlarge => (hall.1 m hm hlarge).1, hall.2⟩
  · refine fun ms d hQ => ⟨fun m hm hlarge => ⟨(hQ.1 m hm hlarge).1, ?_, ?_⟩, hQ.2⟩
    · exact (hQ.1 m hm hlarge).2.small
    · rintro p hp
      cases hp
      trivial
  · intro task budget ms d d' hQ hadvance
    refine ⟨fun m hm hlarge => ?_, List.pairwise_append.2 ⟨hQ.2, List.pairwise_singleton _ _, ?_⟩⟩
    · have hroute := (route_of_choreRoute hlarge).2
      rcases List.mem_append.1 hm with hm | hm
      · obtain ⟨hsmall, hesc⟩ := hQ.1 m hm hlarge
        exact ⟨hsmall, hesc.move hroute hadvance⟩
      · obtain rfl := List.mem_singleton.1 hm
        obtain ⟨⟨l, hl⟩, -⟩ := route_of_choreRoute hlarge
        have hstart : Escalated d.2 d := ⟨rfl, fun p hp => by
          obtain rfl := Except.ok.inj (hl.symm.trans hp)
          trivial⟩
        have hesc := hstart.move hroute hadvance
        exact ⟨hesc.small, hesc⟩
    · intro m hm m' hm' hlarge
      obtain rfl := List.mem_singleton.1 hm'
      have hroute := (route_of_choreRoute hlarge).2
      have hesc := (hQ.1 m hm hlarge).2
      refine ⟨(hesc.move hroute hadvance).small, fun tier htier => ?_⟩
      rw [← (route_of_choreRoute htier).2, ModelCascade.route_for_congr hesc.small, hroute]

end Orchestrator

end Praxis
