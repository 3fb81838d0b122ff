import Praxis.Proofs.Conversation
import Praxis.Proofs.Providers

/-!
# What reaches the provider

A provider that keeps a log of what it is asked is asked, in a run, for the requests of the run in
their order: each of them at least once and at most `max_attempts` times in a row, word for word the
same. A turn makes two requests at most, so the budget bounds the calls (`provider_calls`).
-/

namespace Praxis

variable {W U E : Type}

/-- The provider with a log of the messages that it has been sent. -/
def Provider.logged (inner : Provider E) : Provider (E × List Messages) where
  complete := fun context env =>
    let done := inner.complete context env.1
    (done.1, done.2, env.2 ++ [context])

namespace Orchestrator

open Effect (Prog Blocks Keeps)

variable {M : Machine W U} {task : Str} {budget : Budget} {m : ℕ}

/-- The group is the request, one to `m` times. -/
def Repeats (m : ℕ) (request : Messages) (group : List Messages) : Prop :=
  ∃ k, 1 ≤ k ∧ k ≤ m ∧ group = List.replicate k request

/-- The sinks leave the log alone. -/
def Apart (sinks : List (EventSink (E × List Messages))) : Prop :=
  ∀ sink ∈ sinks, ∀ e env, (sink.on_event e env).2.2 = env.2

/-- Both tiers are served by providers with the log, which are asked at most `m` times. -/
structure Logging (m : ℕ) (s : Sys W U (E × List Messages)) : Prop where
  backed : ∀ r ∈ s.self.retrying, (∃ inner : Provider E, r.inner = some inner.logged)
    ∧ 0 < r.policy.max_attempts.toNat ∧ r.policy.max_attempts.toNat ≤ m
  served : ∀ tier, ∃ i r, s.self.for_tier tier = some (i, r)
  sinks : Apart s.self.replay.sinks

theorem completeLoop_logged (inner : Provider E) (context : Messages) :
    ∀ (attempts : ℕ), 0 < attempts → ∀ (backoff : ℤ) (last : Result ModelResponse)
      (self : RetryingProvider (E × List Messages)) (env : E × List Messages),
      ∃ k, 1 ≤ k ∧ k ≤ attempts
        ∧ (RetryingProvider.completeLoop inner.logged context attempts backoff last self env).2.2.2
          = env.2 ++ List.replicate k context
  | attempts + 1, _, backoff, last, self, env => by
    have honce : ∃ k, 1 ≤ k ∧ k ≤ attempts + 1
        ∧ env.2 ++ [context] = env.2 ++ List.replicate k context :=
      ⟨1, le_rfl, Nat.succ_pos attempts, rfl⟩
    have hinner : inner.logged.complete context env = ((inner.complete context env.1).1,
        (inner.complete context env.1).2, env.2 ++ [context]) := rfl
    unfold RetryingProvider.completeLoop
    rw [hinner]
    rcases inner.complete context env.1 with ⟨e | err | resp, env'⟩
    · exact honce
    · dsimp only
      split_ifs with hlast
      · exact honce
      · have hpos : 0 < attempts := by omega
        obtain ⟨k, hk, hle, hlog⟩ := completeLoop_logged inner context attempts hpos
          (RetryingProvider.nextBackoff self.policy backoff) (.error err)
          (self.countAttempt.backOff backoff) (env', env.2 ++ [context])
        refine ⟨k + 1, Nat.succ_pos k, Nat.succ_le_succ hle, hlog.trans ?_⟩
        rw [List.append_assoc, List.replicate_succ]
        rfl
    · exact honce

theorem logged_complete_for {s : Sys W U (E × List Messages)} (h : Logging m s) (role : Role)
    (messages : Messages) :
    ∃ group, Repeats m messages group
      ∧ ((complete_for role messages).exec s).2.env.2 = s.env.2 ++ group := by
  obtain ⟨i, r, hfind⟩ := h.served (s.self.cascade.route_for role)
  have hmem : r ∈ s.self.retrying := List.mem_of_getElem? (getElem?_of_for_tier hfind)
  obtain ⟨⟨inner, hinner⟩, hpos, hle⟩ := h.backed r hmem
  obtain ⟨k, hk, hmax, hlog⟩ := completeLoop_logged inner messages r.policy.max_attempts.toNat hpos
    r.policy.initial_backoff
    (.error { kind := .Internal, message := "default-constructed Result" }) r s.env
  refine ⟨List.replicate k messages, ⟨k, hk, hmax.trans hle, rfl⟩, ?_⟩
  unfold complete_for
  rw [Prog.exec_of]
  dsimp only
  rw [hfind]
  dsimp only
  unfold RetryingProvider.complete
  rw [hinner]
  exact hlog

theorem logged_complete_and_observe {s : Sys W U (E × List Messages)} (h : Logging m s)
    (role : Role) (messages : Messages) :
    ∃ group, Repeats m messages group
      ∧ ((complete_and_observe role messages).exec s).2.env.2 = s.env.2 ++ group := by
  obtain ⟨group, hgroup, hlog⟩ := logged_complete_for h role messages
  refine ⟨group, hgroup, ?_⟩
  unfold complete_and_observe
  rw [Prog.exec_bind, Prog.exec_step]
  dsimp only
  rw [Prog.exec_bind]
  rcases hexec : (complete_for role messages).exec s with ⟨e | response, s'⟩ <;>
    rw [hexec] at hlog
  · exact hlog
  · rw [← hlog]
    rfl

theorem notify_apart {e : Event} : ∀ {sinks : List (EventSink (E × List Messages))}, Apart sinks →
    ∀ env, (Replay.notify e sinks env).2.2 = env.2
  | [], _, _ => rfl
  | sink :: sinks, h, env => by
    have hsink := h sink List.mem_cons_self e env
    unfold Replay.notify
    rcases hseen : sink.on_event e env with ⟨_ | _, env'⟩ <;> rw [hseen] at hsink
    · exact hsink
    · exact (notify_apart (fun s hs => h s (List.mem_cons_of_mem _ hs)) env').trans hsink

/-- What a program leaves alone that neither asks nor lets the sinks at the log. -/
def Unasked (s s' : Sys W U (E × List Messages)) : Prop :=
  s'.self.replay.sinks = s.self.replay.sinks
    ∧ (Apart s.self.replay.sinks → s'.env.2 = s.env.2)

theorem Unasked.refl (s : Sys W U (E × List Messages)) : Unasked s s := ⟨rfl, fun _ => rfl⟩

theorem Unasked.trans {s s' s'' : Sys W U (E × List Messages)} (h : Unasked s s')
    (h' : Unasked s' s'') : Unasked s s'' :=
  ⟨h'.1.trans h.1, fun hs => (h'.2 (h.1.symm ▸ hs)).trans (h.2 hs)⟩

theorem unasked_does {k : Action} {α : Type} {x : RunM W U (E × List Messages) α} (h : Does M k x)
    (hk : k ≠ .complete) : Keeps Unasked x := by
  intro s
  by_cases hrecord : k = .record
  · subst hrecord
    cases h with
    | record kind payload => exact ⟨rfl, fun hs => notify_apart hs s.env⟩
  · have hwrites := h.writes s
    revert hwrites
    generalize (x.exec s).2 = s'
    intro hwrites
    cases hwrites with
    | record => exact absurd rfl hrecord
    | complete => exact absurd rfl hk
    | _ => exact .refl _

theorem unasked_block {p : Point} (hp : .complete ∉ p.actions) :
    Keeps Unasked (p.block M task budget : RunM W U (E × List Messages) Point) :=
  (runs_block p).keeps Unasked.refl (fun _ _ _ => Unasked.trans) fun _ hmem _ _ hy =>
    unasked_does hy fun h => hp (h ▸ hmem)

theorem sinks_block (p : Point) (s : Sys W U E) :
    ((p.block M task budget).exec s).2.self.replay.sinks = s.self.replay.sinks := by
  refine (runs_block p).keepsWrites (R := fun s s' => s'.self.replay.sinks = s.self.replay.sinks)
    (fun _ => rfl) (fun _ _ _ h h' => h'.trans h) (fun k _ s s' hwrites => ?_) s
  cases hwrites <;> rfl

variable (M task budget) in
theorem Logging.block {s : Sys W U (E × List Messages)} (h : Logging m s) (p : Point) :
    Logging m ((p.block M task budget).exec s).2 := by
  have hwiring : wiring ((p.block M task budget).exec s).2 = wiring s := wiring_block p s
  obtain ⟨-, hrest⟩ := Prod.mk.inj hwiring
  obtain ⟨hrouter, hbacking⟩ := Prod.mk.inj hrest
  refine ⟨fun r hr => ?_, fun tier => ?_, by rw [sinks_block]; exact h.sinks⟩
  · have hmem := List.mem_map_of_mem (f := backing) hr
    rw [hbacking] at hmem
    obtain ⟨r', hr', heq⟩ := List.mem_map.1 hmem
    obtain ⟨hinner, hpolicy⟩ := Prod.mk.inj heq
    rw [← hinner, ← hpolicy]
    exact h.backed r' hr'
  · obtain ⟨i, r, hfind⟩ := h.served tier
    obtain ⟨j, hj, hget⟩ := Option.bind_eq_some_iff.1 hfind
    have hlt : j < s.self.retrying.length := by
      obtain ⟨r', hr', -⟩ := Option.map_eq_some_iff.1 hget
      exact (List.getElem?_eq_some_iff.1 hr').1
    have hlength := congrArg List.length hbacking
    rw [List.length_map, List.length_map] at hlength
    unfold for_tier
    rw [hrouter, hj, Option.bind_some, List.getElem?_eq_getElem (hlength ▸ hlt)]
    exact ⟨_, _, rfl⟩

variable (M task budget) in
/-- What the block of a point adds to the log. -/
theorem logged_block {s : Sys W U (E × List Messages)} (h : Logging m s) (p : Point) :
    match p.sends with
    | none => ((p.block M task budget).exec s).2.env.2 = s.env.2
    | some request => ∃ group, Repeats m request group
      ∧ ((p.block M task budget).exec s).2.env.2 = s.env.2 ++ group := by
  have hquiet : .complete ∉ p.actions → ((p.block M task budget).exec s).2.env.2 = s.env.2 :=
    fun hp => (unasked_block hp s).2 h.sinks
  have hasked : ∀ {role : Role} {request : Messages} {f : Tier × Result ModelResponse → Point},
      p.block M task budget = (complete_and_observe role request >>= fun r => pure (f r) :
        RunM W U (E × List Messages) Point) →
      ∃ group, Repeats m request group
        ∧ ((p.block M task budget).exec s).2.env.2 = s.env.2 ++ group := by
    intro role request f hblock
    obtain ⟨group, hgroup, hlog⟩ := logged_complete_and_observe h role request
    refine ⟨group, hgroup, ?_⟩
    rw [hblock, Prog.exec_bind]
    rcases hexec : (complete_and_observe role request).exec s with ⟨e | r, s'⟩ <;>
      rw [hexec] at hlog <;> exact hlog
  cases p with
  | asking l => exact hasked rfl
  | reviewing l chosen_tier plan calls => exact hasked rfl
  | answered l chosen_tier response => cases response <;> exact hquiet (by simp)
  | _ => exact hquiet (by simp)

/-- The requests of a run. -/
def requests (ms : List (Config W U E × Config W U E)) : List Messages :=
  ms.filterMap fun move => match move.1.1 with
    | .ok p => p.sends
    | .error _ => none

/-- How many requests may still come. -/
def Point.due (budget : Budget) : Point → ℕ
  | start => 2 * (max_turns budget).toNat
  | head l => 2 * l.remaining
  | asking l => 2 * l.remaining + 2
  | answered l _ _ | reviewing l _ _ _ => 2 * l.remaining + 1
  | reviewed l _ _ _ _ | calling l _ _ | called l _ _ _ | observing l => 2 * l.remaining
  | leaving _ | ended _ => 0

theorem Point.Next.due_le {p q : Point} (h : Point.Next M task budget p q) :
    q.due budget + p.sends.toList.length ≤ p.due budget := by
  cases h with
  | turn h =>
    simp only [Point.due, Point.sends, h]
    simp
    omega
  | _ => simp [Point.due, Point.sends]

theorem Point.sends_le_due (budget : Budget) (p : Point) :
    p.sends.toList.length ≤ p.due budget := by
  cases p <;> simp [Point.due, Point.sends]

/-- The requests so far have been logged, and leave room for those due. -/
structure Logged (m : ℕ) (budget : Budget) (s₀ : Sys W U (E × List Messages))
    (ms : List (Config W U (E × List Messages) × Config W U (E × List Messages)))
    (c : Config W U (E × List Messages)) : Prop where
  logging : Logging m c.2
  log : ∃ groups, c.2.env.2 = s₀.env.2 ++ groups.flatten
    ∧ List.Forall₂ (Repeats m) (requests ms) groups
  room : (requests ms).length + (match c.1 with | .ok p => p.due budget | .error _ => 0)
    ≤ 2 * (max_turns budget).toNat

theorem Logged.move {s₀ : Sys W U (E × List Messages)}
    {ms : List (Config W U (E × List Messages) × Config W U (E × List Messages))}
    {c c' : Config W U (E × List Messages)} (h : Logged m budget s₀ ms c)
    (hmove : (control M task budget).advance c = some c') :
    Logged m budget s₀ (ms ++ [(c, c')]) c' := by
  obtain ⟨_ | p, s⟩ := c
  · cases hmove
  obtain ⟨hfinal, hexec⟩ := exec_of_advance hmove
  obtain ⟨groups, hlog, hgroups⟩ := h.log
  have hadded := logged_block M task budget h.logging p
  have hlogging := h.logging.block M task budget p
  have hroom := h.room
  rw [hexec] at hadded hlogging
  have hrequests : requests (ms ++ [((.ok p, s), c')]) = requests ms ++ p.sends.toList := by
    unfold requests
    rw [List.filterMap_append]
    cases hsends : p.sends <;> simp [hsends]
  refine ⟨hlogging, ?_, ?_⟩
  · rw [hrequests]
    cases hsends : p.sends with
    | none =>
      rw [hsends] at hadded
      exact ⟨groups, hadded.trans hlog, by simpa using hgroups⟩
    | some request =>
      rw [hsends] at hadded
      obtain ⟨group, hgroup, hadded⟩ := hadded
      refine ⟨groups ++ [group], ?_, List.rel_append hgroups (.cons hgroup .nil)⟩
      rw [hadded, show s.env.2 = s₀.env.2 ++ groups.flatten from hlog]
      simp
  · rw [hrequests, List.length_append]
    dsimp only at hroom
    rcases c' with ⟨e | q, s'⟩
    · have hsends := p.sends_le_due budget
      dsimp only
      omega
    · have hdue := (Point.next_block p hfinal s q s' hexec).due_le
      dsimp only
      omega

theorem length_flatten_le {sent : List Messages} {groups : List (List Messages)}
    (h : List.Forall₂ (Repeats m) sent groups) : groups.flatten.length ≤ m * sent.length := by
  induction h with
  | nil => simp
  | cons hgroup _ ih =>
    obtain ⟨k, -, hk, rfl⟩ := hgroup
    rw [List.flatten_cons, List.length_append, List.length_replicate, List.length_cons,
      Nat.mul_succ]
    omega

/-- In a run the provider is called for the requests of the run, in their order and each one to `m`
times in a row. There are at most two requests for each turn of the budget, so there are at most
`2 * m` calls for each. -/
theorem provider_calls (M : Machine W U) (task : Str) (budget : Budget)
    (s : Sys W U (E × List Messages)) (h : Logging m s) :
    let after := ((run M task budget).exec s).2
    (∃ groups, after.env.2 = s.env.2 ++ groups.flatten
        ∧ List.Forall₂ (Repeats m) (requests (moves M task budget s)) groups)
      ∧ (requests (moves M task budget s)).length ≤ 2 * (max_turns budget).toNat
      ∧ after.env.2.length ≤ s.env.2.length + 2 * m * (max_turns budget).toNat := by
  intro after
  have hstart : Logged m budget s [] (.ok .start, s) :=
    ⟨h, ⟨[], (List.append_nil _).symm, .nil⟩, le_of_eq (Nat.zero_add _)⟩
  obtain ⟨-, ⟨groups, hlog, hgroups⟩, hroom⟩ := Blocks.along (control M task budget) hstart
    (fun ms d d' hd hmove => hd.move hmove) (List.prefix_refl (moves M task budget s))
  rw [stop_moves_snd] at hlog
  have hcount : (requests (moves M task budget s)).length ≤ 2 * (max_turns budget).toNat :=
    (Nat.le_add_right _ _).trans hroom
  refine ⟨⟨groups, hlog, hgroups⟩, hcount, ?_⟩
  have hflat := length_flatten_le hgroups
  rw [show after.env.2 = s.env.2 ++ groups.flatten from hlog, List.length_append]
  calc s.env.2.length + groups.flatten.length
      ≤ s.env.2.length + m * (2 * (max_turns budget).toNat) := by
        have := Nat.mul_le_mul_left m hcount
        omega
    _ = s.env.2.length + 2 * m * (max_turns budget).toNat := by ring

/-- A new orchestrator before a script, with a log. -/
def loggedStart (script : List ModelResponse) :
    Sys FlatFs Empty (List ModelResponse × List Messages) where
  self := ofProvider scripted.logged {}
  world := fun _ => none
  env := (script, [])

theorem logging_loggedStart (script : List ModelResponse) : Logging 3 (loggedStart script) where
  backed := fun r hr => by
    obtain rfl := List.mem_singleton.1 hr
    exact ⟨⟨scripted, rfl⟩, by decide, by decide⟩
  served := fun tier => by cases tier <;> exact ⟨_, _, rfl⟩
  sinks := fun sink hsink => by cases hsink

theorem provider_calls_proposal :
    let s := loggedStart [proposal "list" "", answer "CONFIRM", answer "done"]
    let after := ((run (scriptedMachine (.ofTable [])) "task" {}).exec s).2
    (∃ groups, after.env.2 = [] ++ groups.flatten
        ∧ List.Forall₂ (Repeats 3) (requests (moves (scriptedMachine (.ofTable [])) "task" {} s))
          groups)
      ∧ (requests (moves (scriptedMachine (.ofTable [])) "task" {} s)).length
        ≤ 2 * (max_turns {}).toNat
      ∧ after.env.2.length ≤ 0 + 2 * 3 * (max_turns {}).toNat :=
  provider_calls (scriptedMachine (.ofTable [])) "task" {} _ (logging_loggedStart _)

end Orchestrator

end Praxis
