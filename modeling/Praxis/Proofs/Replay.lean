import Praxis.Replay

/-!
# Recording and replaying

Events come with a number of their own or are given the next one. Over any sequence of operations
the last number given out is the largest stored, a subscriber has received what has been stored
since it came, and what is replayed is recorded again as it was (`replay_faithful`). The number 0
stands for none, so the numbers must not run out.
-/

namespace Praxis

variable {E : Type}

/-- An environment with what each subscriber has received, by its position among them. -/
abbrev Kept (E : Type) := E × (ℕ → List Event)

/-- The subscriber with this number: it keeps what it receives, whatever else it does. -/
def keeping (n : ℕ) (sink : EventSink E) : EventSink (Kept E) where
  on_event := fun e env =>
    let done := sink.on_event e env.1
    (done.1, done.2, Function.update env.2 n (env.2 n ++ [e]))

/-- What a client may ask of a replay, but to clear it. -/
inductive ReplayOp (E : Type)
  | record (event : Event)
  | link (from_ to_ : UInt64)
  | subscribe (sink : EventSink E)

/-- A replay in its surroundings. -/
structure Recording (E : Type) where
  replay : Replay (Kept E) := {}
  env : Kept E

namespace Recording

def perform (s : Recording E) : ReplayOp E → Except Exn Unit × Recording E
  | .record event =>
    let recorded := s.replay.record event s.env
    (recorded.1, { replay := recorded.2.1, env := recorded.2.2 })
  | .link from_ to_ => (.ok (), { s with replay := s.replay.link from_ to_ })
  | .subscribe sink =>
    (.ok (), { s with replay := s.replay.subscribe (keeping s.replay.sinks.length sink) })

/-- The state after the operations, if all of them return. -/
def performs : Recording E → List (ReplayOp E) → Option (Recording E)
  | s, [] => some s
  | s, op :: ops =>
    match s.perform op with
    | (.ok _, s') => performs s' ops
    | (.error _, _) => none

def start (env : E) : Recording E where
  env := (env, fun _ => [])

def received (s : Recording E) (n : ℕ) : List Event := s.env.2 n

end Recording

/-- A sink that records into another replay. -/
def recorder : EventSink (Replay E × E) where
  on_event := fun e s =>
    let recorded := s.1.record e s.2
    (recorded.1, recorded.2.1, recorded.2.2)

/-- The number is the largest of the events, or 0 if there are none. -/
def IsLast (n : UInt64) (events : List Event) : Prop :=
  (∀ e ∈ events, e.sequence ≤ n) ∧ (events = [] ∧ n = 0 ∨ ∃ e ∈ events, e.sequence = n)

/-- The subscribers from the number `k` on. -/
def keepingAll : ℕ → List (EventSink E) → List (EventSink (Kept E))
  | _, [] => []
  | k, sink :: sinks => keeping k sink :: keepingAll (k + 1) sinks

theorem length_keepingAll : ∀ (k : ℕ) (sinks : List (EventSink E)),
    (keepingAll k sinks).length = sinks.length
  | _, [] => rfl
  | k, _ :: sinks => congrArg (· + 1) (length_keepingAll (k + 1) sinks)

theorem keepingAll_snoc (sink : EventSink E) : ∀ (k : ℕ) (sinks : List (EventSink E)),
    keepingAll k (sinks ++ [sink]) = keepingAll k sinks ++ [keeping (k + sinks.length) sink]
  | _, [] => rfl
  | k, first :: sinks => by
    rw [List.cons_append, keepingAll, keepingAll_snoc sink (k + 1) sinks, List.length_cons,
      show k + 1 + sinks.length = k + (sinks.length + 1) by omega]
    rfl

/-- If none of the subscribers throws, all of them have received the event. -/
theorem notify_keepingAll {e : Event} :
    ∀ {sinks : List (EventSink E)} {k : ℕ} {env env' : Kept E},
      Replay.notify e (keepingAll k sinks) env = (.ok (), env') → ∀ n,
        env'.2 n = env.2 n ++ if k ≤ n ∧ n < k + sinks.length then [e] else []
  | [], k, env, env', h => fun n => by
    cases h
    rw [if_neg (by simp), List.append_nil]
  | sink :: sinks, k, env, env', h => fun n => by
    unfold keepingAll Replay.notify at h
    split at h
    · next env₁ hfirst =>
      have hkept : env₁.2 = Function.update env.2 k (env.2 k ++ [e]) :=
        congrArg (fun r => r.2.2) hfirst.symm
      rw [notify_keepingAll h n, hkept]
      by_cases hn : n = k
      · subst hn
        rw [Function.update_self, if_neg (by omega), if_pos (by simp), List.append_nil]
      · rw [Function.update_of_ne hn, List.length_cons]
        congr 1
        exact if_congr (by omega) rfl rfl
    · cases h

namespace Recording

variable {s s' : Recording E} {op : ReplayOp E} {ops : List (ReplayOp E)}

/-- The sinks are subscribers, and those to come have received nothing. -/
def Subscribed (s : Recording E) : Prop :=
  ∃ sinks : List (EventSink E), s.replay.sinks = keepingAll 0 sinks
    ∧ ∀ n, sinks.length ≤ n → s.received n = []

/-- What has been stored between two states, every subscriber of the first has received. -/
structure Follows (s s' : Recording E) (events : List Event) : Prop where
  stored : s'.replay.events = s.replay.events ++ events
  sinks : s.replay.sinks.length ≤ s'.replay.sinks.length
  received : ∀ n, n < s.replay.sinks.length → s'.received n = s.received n ++ events

theorem Follows.trans {s'' : Recording E} {events events' : List Event} (h : Follows s s' events)
    (h' : Follows s' s'' events') : Follows s s'' (events ++ events') where
  stored := by rw [h'.stored, h.stored, List.append_assoc]
  sinks := h.sinks.trans h'.sinks
  received := fun n hn => by
    rw [h'.received n (hn.trans_le h.sinks), h.received n hn, List.append_assoc]

def stores (s : Recording E) : ReplayOp E → List Event
  | .record event => [s.replay.numbered event]
  | _ => []

theorem subscribed_start (env : E) : (start env).Subscribed := ⟨[], rfl, fun _ _ => rfl⟩

theorem Subscribed.perform (h : s.Subscribed) (hop : s.perform op = (.ok (), s')) :
    s'.Subscribed ∧ Follows s s' (s.stores op) := by
  obtain ⟨sinks, hsinks, hnew⟩ := h
  have hlength : s.replay.sinks.length = sinks.length := by rw [hsinks, length_keepingAll]
  cases op with
  | record event =>
    obtain ⟨hok, rfl⟩ := Prod.mk.inj hop
    have hnotified : Replay.notify (s.replay.numbered event) (keepingAll 0 sinks) s.env
        = (.ok (), (s.replay.record event s.env).2.2) := by
      rw [← hsinks]
      exact Prod.ext hok rfl
    have hreceived := notify_keepingAll hnotified
    refine ⟨⟨sinks, hsinks, fun n hn => ?_⟩, rfl, le_rfl, fun n hn => ?_⟩
    · refine (hreceived n).trans ?_
      rw [if_neg (by omega), List.append_nil]
      exact hnew n hn
    · refine (hreceived n).trans ?_
      rw [if_pos (by omega)]
      rfl
  | link from_ to_ =>
    obtain ⟨-, rfl⟩ := Prod.mk.inj hop
    exact ⟨⟨sinks, hsinks, hnew⟩, (List.append_nil _).symm, le_rfl,
      fun n _ => (List.append_nil _).symm⟩
  | subscribe sink =>
    obtain ⟨-, rfl⟩ := Prod.mk.inj hop
    refine ⟨⟨sinks ++ [sink], ?_, fun n hn => hnew n ?_⟩, (List.append_nil _).symm, ?_,
      fun n _ => (List.append_nil _).symm⟩
    · show s.replay.sinks ++ [keeping s.replay.sinks.length sink] = _
      rw [keepingAll_snoc, hlength, hsinks, Nat.zero_add]
    · exact (List.length_append ▸ Nat.le_add_right _ _ : sinks.length ≤ _).trans hn
    · exact (List.length_append ▸ Nat.le_add_right _ _ : s.replay.sinks.length ≤ _)

theorem performs_cons :
    s.performs (op :: ops) = some s' ↔ ∃ s₁, s.perform op = (.ok (), s₁) ∧ s₁.performs ops = some s'
    := by
  rw [performs]
  rcases s.perform op with ⟨e | _, s₁⟩
  · simp
  · simp

theorem performs_append {ops' : List (ReplayOp E)} :
    s.performs (ops ++ ops') = some s' ↔ ∃ s₁, s.performs ops = some s₁ ∧ s₁.performs ops' = some s'
    := by
  induction ops generalizing s with
  | nil => simp [performs]
  | cons op ops ih =>
    simp only [List.cons_append, performs_cons, ih]
    constructor
    · rintro ⟨s₁, hop, s₂, hops, hrest⟩
      exact ⟨s₂, ⟨s₁, hop, hops⟩, hrest⟩
    · rintro ⟨s₂, ⟨s₁, hop, hops⟩, hrest⟩
      exact ⟨s₁, hop, s₂, hops, hrest⟩

theorem Subscribed.performs (h : s.Subscribed) (hops : s.performs ops = some s') :
    s'.Subscribed ∧ ∃ events, Follows s s' events := by
  induction ops generalizing s with
  | nil =>
    obtain rfl := Option.some.inj hops
    exact ⟨h, [], (List.append_nil _).symm, le_rfl, fun _ _ => (List.append_nil _).symm⟩
  | cons op ops ih =>
    obtain ⟨s₁, hop, hrest⟩ := performs_cons.1 hops
    obtain ⟨h₁, hfollows⟩ := h.perform hop
    obtain ⟨h', events, hfollows'⟩ := ih h₁ hrest
    exact ⟨h', _, hfollows.trans hfollows'⟩

/-- A subscriber has received what has been stored since it came. -/
theorem Subscribed.received_since (h : s.Subscribed) {sink : EventSink E}
    (hops : s.performs (.subscribe sink :: ops) = some s') :
    s'.replay.events = s.replay.events ++ s'.received s.replay.sinks.length := by
  obtain ⟨s₁, hop, hrest⟩ := performs_cons.1 hops
  obtain ⟨h₁, -⟩ := h.perform hop
  obtain ⟨-, events, hfollows⟩ := h₁.performs hrest
  obtain ⟨-, rfl⟩ := Prod.mk.inj hop
  obtain ⟨sinks, hsinks, hnew⟩ := h
  have hlength : s.replay.sinks.length = sinks.length := by rw [hsinks, length_keepingAll]
  have hnone : s.received s.replay.sinks.length = [] := hnew _ hlength.ge
  have hhas : s.replay.sinks.length
      < (s.replay.subscribe (keeping s.replay.sinks.length sink)).sinks.length := by
    rw [Replay.subscribe, List.length_append, List.length_singleton]
    exact Nat.lt_succ_self _
  have hreceived := hfollows.received s.replay.sinks.length hhas
  rw [hfollows.stored, hreceived]
  exact congrArg (s.replay.events ++ ·) (congrArg (· ++ events) hnone).symm

end Recording

/-- The numbers that may be stored: one below the largest is left for the next. -/
def BelowLimit (events : List Event) : Prop := ∀ e ∈ events, e.sequence.toNat < 2 ^ 64 - 1

theorem isLast_snoc {n : UInt64} {events : List Event} (h : IsLast n events) (e : Event) :
    IsLast (max n e.sequence) (events ++ [e]) := by
  obtain ⟨hle, hmem⟩ := h
  rw [UInt64.max_def]
  split_ifs with hn
  · refine ⟨List.forall_mem_append.2 ⟨fun e' he' => UInt64.le_trans (hle e' he') hn,
      List.forall_mem_singleton.2 (UInt64.le_refl _)⟩, .inr ⟨e, by simp, rfl⟩⟩
  · have hlt : e.sequence ≤ n := (UInt64.le_total _ _).resolve_right hn
    refine ⟨List.forall_mem_append.2 ⟨hle, List.forall_mem_singleton.2 hlt⟩, .inr ?_⟩
    rcases hmem with ⟨-, rfl⟩ | ⟨e', he', hn'⟩
    · exact (hn (UInt64.le_iff_toNat_le.2 (Nat.zero_le _))).elim
    · exact ⟨e', List.mem_append_left _ he', hn'⟩

/-- Under the limit there is a next number, and it is greater than all before. -/
theorem isLast_lt_next {n : UInt64} {events : List Event} (h : IsLast n events)
    (hsmall : BelowLimit events) :
    (n + 1).toNat = n.toNat + 1 ∧ ∀ e ∈ events, e.sequence < n + 1 := by
  have hn : n.toNat < 2 ^ 64 - 1 := by
    rcases h.2 with ⟨-, rfl⟩ | ⟨e, he, rfl⟩
    · decide
    · exact hsmall e he
  have hnext : (n + 1).toNat = n.toNat + 1 := by
    rw [UInt64.toNat_add]
    exact Nat.mod_eq_of_lt (by simp only [UInt64.toNat_one]; omega)
  refine ⟨hnext, fun e he => UInt64.lt_iff_toNat_lt.2 ?_⟩
  have hle := UInt64.le_iff_toNat_le.1 (h.1 e he)
  omega

namespace Replay

/-- Every stored event has a number, and the last is the largest. -/
structure Numbered (replay : Replay E) : Prop where
  last : IsLast replay.last_seq replay.events
  given : ∀ e ∈ replay.events, e.sequence ≠ 0

theorem numbered_start : Numbered ({} : Replay E) where
  last := ⟨by simp, .inl ⟨rfl, rfl⟩⟩
  given := by simp

theorem push_of_ne {replay : Replay E} {event : Event} (h : event.sequence ≠ 0) :
    replay.push event
      = { replay with
          events := replay.events ++ [event]
          last_seq := max replay.last_seq event.sequence } := by
  simp [push, numbered, h]

theorem Numbered.push {replay : Replay E} (h : replay.Numbered) (hsmall : BelowLimit replay.events)
    (event : Event) : (replay.push event).Numbered := by
  by_cases hauto : event.sequence = 0
  · obtain ⟨hnext, hlt⟩ := isLast_lt_next h.last hsmall
    have hpush : replay.push event = { replay with
        events := replay.events ++ [{ event with sequence := replay.last_seq + 1 }]
        last_seq := replay.last_seq + 1 } := by simp [Replay.push, numbered, hauto]
    rw [hpush]
    refine ⟨⟨?_, .inr ⟨_, List.mem_append_right _ List.mem_cons_self, rfl⟩⟩, ?_⟩
    · exact List.forall_mem_append.2 ⟨fun e he => UInt64.le_of_lt (hlt e he),
        List.forall_mem_singleton.2 (UInt64.le_refl _)⟩
    · refine List.forall_mem_append.2 ⟨h.given, List.forall_mem_singleton.2 fun hzero => ?_⟩
      have hzero' : (replay.last_seq + 1).toNat = 0 := congrArg UInt64.toNat hzero
      omega
  · rw [push_of_ne hauto]
    exact ⟨isLast_snoc h.last event,
      List.forall_mem_append.2 ⟨h.given, List.forall_mem_singleton.2 hauto⟩⟩

/-- Events that have numbers are recorded as they are. -/
theorem feed_recorder : ∀ (events : List Event) (replay : Replay E) (env : E),
    replay.sinks = [] → (∀ e ∈ events, e.sequence ≠ 0) →
    ∃ replay', feed recorder events (replay, env) = (.ok (), replay', env)
      ∧ replay'.events = replay.events ++ events
      ∧ replay'.last_seq = events.foldl (fun n e => max n e.sequence) replay.last_seq
  | [], replay, env, _, _ => ⟨replay, rfl, (List.append_nil _).symm, rfl⟩
  | e :: events, replay, env, hsinks, hgiven => by
    obtain ⟨hfirst, hrest⟩ := List.forall_mem_cons.1 hgiven
    have hpush : replay.push e = _ := push_of_ne hfirst
    have hrecord : recorder.on_event e (replay, env) = (.ok (), replay.push e, env) := by
      simp [recorder, record, hsinks, notify]
    have hsinks' : (replay.push e).sinks = [] := by rw [hpush]; exact hsinks
    obtain ⟨replay', hfeed, hevents, hlast⟩ := feed_recorder events _ env hsinks' hrest
    refine ⟨replay', ?_, ?_, ?_⟩
    · rw [feed, hrecord]
      exact hfeed
    · rw [hevents, hpush, List.append_assoc]
      rfl
    · rw [hlast, hpush]
      rfl

end Replay

theorem isLast_foldl : ∀ {events events' : List Event} {n : UInt64}, IsLast n events →
    IsLast (events'.foldl (fun n e => max n e.sequence) n) (events ++ events')
  | events, [], n, h => by rwa [List.append_nil]
  | events, e :: events', n, h => by
    have hrest : IsLast (events'.foldl _ _) (events ++ [e] ++ events') :=
      isLast_foldl (isLast_snoc h e)
    rwa [List.append_assoc] at hrest

theorem IsLast.le {n m : UInt64} {events : List Event} (h : IsLast n events)
    (h' : IsLast m events) : n ≤ m := by
  rcases h.2 with ⟨-, rfl⟩ | ⟨e, he, rfl⟩
  · exact UInt64.le_iff_toNat_le.2 (Nat.zero_le _)
  · exact h'.1 e he

namespace Recording

variable {s s' : Recording E} {op : ReplayOp E} {ops : List (ReplayOp E)}

theorem perform_replay (hop : s.perform op = (.ok (), s')) :
    (∃ event, op = .record event ∧ s'.replay = s.replay.push event)
      ∨ s'.replay.events = s.replay.events ∧ s'.replay.last_seq = s.replay.last_seq := by
  cases op with
  | record event =>
    obtain ⟨-, rfl⟩ := Prod.mk.inj hop
    exact .inl ⟨event, rfl, rfl⟩
  | link | subscribe =>
    obtain ⟨-, rfl⟩ := Prod.mk.inj hop
    exact .inr ⟨rfl, rfl⟩

/-- The numbers stay in order as long as they do not run out. -/
theorem numbered_performs (h : s.Subscribed) (hnumbered : s.replay.Numbered)
    (hops : s.performs ops = some s') (hsmall : BelowLimit s'.replay.events) :
    s'.replay.Numbered := by
  induction ops generalizing s with
  | nil =>
    obtain rfl := Option.some.inj hops
    exact hnumbered
  | cons op ops ih =>
    obtain ⟨s₁, hop, hrest⟩ := performs_cons.1 hops
    obtain ⟨h₁, hfirst⟩ := h.perform hop
    obtain ⟨-, events, hfollows⟩ := h₁.performs hrest
    refine ih h₁ ?_ hrest
    rcases perform_replay hop with ⟨event, -, hpush⟩ | ⟨hevents, hlast⟩
    · rw [hpush]
      refine hnumbered.push (fun e he => hsmall e ?_) event
      rw [hfollows.stored, hfirst.stored]
      exact List.mem_append_left _ (List.mem_append_left _ he)
    · exact ⟨by rw [hevents, hlast]; exact hnumbered.last, by rw [hevents]; exact hnumbered.given⟩

/-- An event without a number gets one that is greater than all before. -/
theorem next_number (h : s.Subscribed) (hnumbered : s.replay.Numbered) {event : Event}
    (hauto : event.sequence = 0) (hops : s.performs (.record event :: ops) = some s')
    (hsmall : BelowLimit s'.replay.events) :
    ∃ n, s.replay.events ++ [{ event with sequence := n }] <+: s'.replay.events
      ∧ ∀ e ∈ s.replay.events, e.sequence < n := by
  obtain ⟨s₁, hop, hrest⟩ := performs_cons.1 hops
  obtain ⟨h₁, hfirst⟩ := h.perform hop
  obtain ⟨-, events, hfollows⟩ := h₁.performs hrest
  have hstored := hfollows.stored
  have hone : s.stores (.record event) = [{ event with sequence := s.replay.last_seq + 1 }] := by
    simp [stores, Replay.numbered, hauto]
  rw [hfirst.stored, hone] at hstored
  refine ⟨_, ⟨events, hstored.symm⟩, (isLast_lt_next hnumbered.last fun e he => hsmall e ?_).2⟩
  rw [hstored]
  exact List.mem_append_left _ (List.mem_append_left _ he)

/-- What is stored and received after the operations. -/
structure Faithful (env : E) (ops : List (ReplayOp E)) (s : Recording E) : Prop where
  received : ∀ before sink after s₁, ops = before ++ .subscribe sink :: after →
    (start env).performs before = some s₁ →
    s.replay.events = s₁.replay.events ++ s.received s₁.replay.sinks.length
  numbered : ∀ before event after s₁, ops = before ++ .record event :: after →
    event.sequence = 0 → (start env).performs before = some s₁ →
    ∃ n, s₁.replay.events ++ [{ event with sequence := n }] <+: s.replay.events
      ∧ ∀ e ∈ s₁.replay.events, e.sequence < n
  last : IsLast s.replay.last_seq s.replay.events
  replayed : ∃ replay : Replay Unit,
    s.replay.replay_into recorder ({}, ()) = (.ok (), replay, ())
      ∧ replay.events = s.replay.events ∧ replay.last_seq = s.replay.last_seq

/-- As long as the numbers do not run out, nothing is lost, reordered or numbered twice. -/
theorem replay_faithful {env : E} (hops : (start env).performs ops = some s)
    (hsmall : BelowLimit s.replay.events) : Faithful env ops s := by
  have hstart := subscribed_start env
  have hnumbered := numbered_performs hstart Replay.numbered_start hops hsmall
  have hbefore : ∀ {before rest : List (ReplayOp E)} {s₁ : Recording E}, ops = before ++ rest →
      (start env).performs before = some s₁ →
      s₁.Subscribed ∧ s₁.replay.Numbered ∧ s₁.performs rest = some s := by
    rintro before rest s₁ rfl hbefore
    obtain ⟨s₂, hs₂, hrest⟩ := performs_append.1 hops
    obtain rfl : s₁ = s₂ := Option.some.inj (hbefore.symm.trans hs₂)
    obtain ⟨h₁, -⟩ := hstart.performs hbefore
    obtain ⟨-, events, hfollows⟩ := h₁.performs hrest
    refine ⟨h₁, numbered_performs hstart Replay.numbered_start hbefore
      fun e he => hsmall e ?_, hrest⟩
    rw [hfollows.stored]
    exact List.mem_append_left _ he
  refine ⟨?_, ?_, hnumbered.last, ?_⟩
  · intro before sink after s₁ hsplit hs₁
    obtain ⟨h₁, -, hrest⟩ := hbefore hsplit hs₁
    exact h₁.received_since hrest
  · intro before event after s₁ hsplit hauto hs₁
    obtain ⟨h₁, hnumbered₁, hrest⟩ := hbefore hsplit hs₁
    exact next_number h₁ hnumbered₁ hauto hrest hsmall
  · obtain ⟨replay, hfeed, hevents, hlast⟩ :=
      Replay.feed_recorder s.replay.events ({} : Replay Unit) () rfl hnumbered.given
    have hfresh : IsLast replay.last_seq ([] ++ s.replay.events) :=
      hlast ▸ isLast_foldl (Replay.numbered_start : ({} : Replay Unit).Numbered).last
    exact ⟨replay, hfeed, hevents, UInt64.le_antisymm (hfresh.le hnumbered.last)
      (hnumbered.last.le hfresh)⟩

/-- A number is given, one is set, and one is given after it. -/
theorem replay_faithful_mixed :
    let ops : List (ReplayOp Unit) :=
      [.record {}, .subscribe { on_event := fun _ env => (.ok (), env) },
        .record { sequence := 7 }, .link 1 7, .record { kind := .TaskEnded }]
    ∃ s, (start ()).performs ops = some s
      ∧ s.replay.events.map (·.sequence) = [1, 7, 8] ∧ Faithful () ops s := by
  intro ops
  obtain ⟨s, hs, hsequences⟩ : ∃ s, (start ()).performs ops = some s
      ∧ s.replay.events.map (·.sequence) = [1, 7, 8] := ⟨_, rfl, by decide⟩
  refine ⟨s, hs, hsequences, replay_faithful hs fun e he => ?_⟩
  have hmem : e.sequence ∈ [1, 7, 8] := hsequences ▸ List.mem_map_of_mem he
  have hall : ∀ n ∈ ([1, 7, 8] : List UInt64), n.toNat < 9 := by simp
  exact (hall _ hmem).trans (by norm_num)

end Recording

end Praxis
