import Praxis.Sse

/-!
# From the stream to the callers

The frames of a stream do not depend on its chunks, and `receive` returns their data in order
(`frames_delivered`). Between any two steps what has been returned and what is queued is together
what has been pushed, and with the frames still in the buffer these are the frames of all that has
come in.
-/

namespace Praxis

/-- The data of the frames that are not empty. -/
def payloads (frames : List SseFrame) : List Str :=
  (frames.map (·.data)).filter fun data => !data.isEmpty

theorem payloads_snoc (frames : List SseFrame) (frame : SseFrame) :
    payloads (frames ++ [frame])
      = payloads frames ++ if frame.data.isEmpty then [] else [frame.data] := by
  unfold payloads
  rw [List.map_append, List.filter_append]
  by_cases h : frame.data.isEmpty = true <;> simp [h]

theorem on_chunks_eq :
    ∀ (buffer : Str) (chunks : List Str),
      on_chunks buffer chunks = (next_frame.feeds buffer chunks).1
  | _, [] => rfl
  | buffer, data :: chunks => by
    unfold on_chunks on_chunk
    dsimp only
    rw [on_chunks_eq]
    rfl

theorem on_chunks_nil (chunks : List Str) :
    on_chunks [] chunks = (next_frame.drain chunks.flatten).1 := by
  rw [on_chunks_eq, next_frame.feeds_nil]

example : on_chunks [] [lit "data: a\ndata:b\n", lit "\ndata: c\r\n\nda"]
    = [{ data := lit "a\nb" }, { data := lit "c" }] := by decide +kernel

theorem next_frame_nil : next_frame.next [] = none := by decide +kernel

namespace SseTransport

variable {t : SseTransport}

theorem receive_cons {out : Str} {queue : List Str} (h : t.queue = out :: queue) :
    t.receive = some (out, { t with queue := queue }) := by
  simp [receive, ready, h]

/-- A caller takes the first of the queue, or comes back with nothing. -/
theorem receive_cases {got : Str × SseTransport} (h : t.receive = some got) :
    (t.queue = [] ∧ got = ([], t))
      ∨ ∃ out queue, t.queue = out :: queue ∧ got = (out, { t with queue := queue }) := by
  rcases hqueue : t.queue with _ | ⟨out, queue⟩
  · simp only [receive, hqueue] at h
    split_ifs at h
    exact .inl ⟨rfl, (Option.some.inj h).symm⟩
  · rw [receive_cons hqueue] at h
    exact .inr ⟨out, queue, rfl, (Option.some.inj h).symm⟩

theorem push_frame_queue (frame : SseFrame) :
    (t.push_frame frame).queue
      = t.queue ++ if frame.data.isEmpty then [] else [frame.data] := by
  unfold push_frame
  split_ifs
  · rw [List.append_nil]
  · rfl

end SseTransport

namespace EventThread

def buffer : EventThread → Str
  | reading buffer | splitting buffer => buffer
  | ended => []

/-- The thread is in no call of `on_chunk`. -/
def settled : EventThread → Bool
  | splitting _ => false
  | _ => true

end EventThread

namespace SseSystem

variable {s s' : SseSystem} {a : SseStep}

/-- What the steps do, and when they can be taken. -/
inductive Taken (s : SseSystem) : SseStep → SseSystem → Prop
  | construct (hconstructed : s.constructed = false) :
    Taken s .construct
      { s with constructed := true, transport := { s.transport with stream_alive := true } }
  | chunk {buffer : Str} (data : Str) (hthread : s.thread = .reading buffer) :
    Taken s (.chunk data)
      { s with thread := .splitting (buffer ++ data), chunks := s.chunks ++ [data] }
  | frame {buffer : Str} {found : SseFrame × Str} (hthread : s.thread = .splitting buffer)
    (hfound : next_frame.next buffer = some found) :
    Taken s .frame
      { s with
        thread := .splitting found.2
        transport := s.transport.push_frame found.1
        pushed := s.pushed ++ [found.1] }
  | leave {buffer : Str} (hthread : s.thread = .splitting buffer)
    (hnone : next_frame.next buffer = none) : Taken s .leave { s with thread := .reading buffer }
  | eof {buffer : Str} (hthread : s.thread = .reading buffer) :
    Taken s .eof { s with thread := .ended, transport := s.transport.push_eof }
  | receive {got : Str × SseTransport} (hconstructed : s.constructed = true)
    (hgot : s.transport.receive = some got) :
    Taken s .receive { s with transport := got.2, received := s.received ++ [got.1] }
  | close (hconstructed : s.constructed = true) :
    Taken s .close { s with transport := { s.transport with closing := true } }

theorem taken_of_step (hstep : s.step a = some s') : Taken s a s' := by
  cases a with
  | construct =>
    simp only [SseSystem.step] at hstep
    split_ifs at hstep with hconstructed
    obtain rfl := Option.some.inj hstep
    exact .construct (Bool.eq_false_iff.2 hconstructed)
  | chunk data =>
    simp only [SseSystem.step] at hstep
    split at hstep
    · next buffer hthread =>
      obtain rfl := Option.some.inj hstep
      exact .chunk data hthread
    · cases hstep
  | frame =>
    simp only [SseSystem.step] at hstep
    split at hstep
    · next buffer hthread =>
      obtain ⟨found, hfound, rfl⟩ := Option.map_eq_some_iff.1 hstep
      exact .frame hthread hfound
    · cases hstep
  | leave =>
    simp only [SseSystem.step] at hstep
    split at hstep
    · next buffer hthread =>
      split_ifs at hstep with hnone
      obtain rfl := Option.some.inj hstep
      exact .leave hthread (Option.isNone_iff_eq_none.1 hnone)
    · cases hstep
  | eof =>
    simp only [SseSystem.step] at hstep
    split at hstep
    · next buffer hthread =>
      obtain rfl := Option.some.inj hstep
      exact .eof hthread
    · cases hstep
  | receive =>
    simp only [SseSystem.step] at hstep
    split_ifs at hstep with hconstructed
    obtain ⟨got, hgot, rfl⟩ := Option.map_eq_some_iff.1 hstep
    exact .receive hconstructed hgot
  | close =>
    simp only [SseSystem.step] at hstep
    split_ifs at hstep with hconstructed
    obtain rfl := Option.some.inj hstep
    exact .close hconstructed

/-- What holds between any two steps. -/
structure Streams (s : SseSystem) : Prop where
  frames : s.pushed ++ (next_frame.drain s.thread.buffer).1
    = (next_frame.drain s.chunks.flatten).1
  rest : s.thread ≠ .ended →
    (next_frame.drain s.thread.buffer).2 = (next_frame.drain s.chunks.flatten).2
  settled : s.thread.settled = true → next_frame.next s.thread.buffer = none
  payloads : (s.received.filter fun data => !data.isEmpty) ++ s.transport.queue
    = payloads s.pushed
  queue : ∀ data ∈ s.transport.queue, data ≠ []

theorem streams_start : Streams {} where
  frames := rfl
  rest := fun _ => rfl
  settled := fun _ => next_frame_nil
  payloads := rfl
  queue := fun _ h => absurd h List.not_mem_nil

/-- A step that only sets flags. -/
theorem Streams.of_eq (h : Streams s) (hthread : s'.thread = s.thread)
    (hchunks : s'.chunks = s.chunks) (hpushed : s'.pushed = s.pushed)
    (hreceived : s'.received = s.received) (hqueue : s'.transport.queue = s.transport.queue) :
    Streams s' where
  frames := by rw [hpushed, hthread, hchunks, h.frames]
  rest := by rw [hthread, hchunks]; exact h.rest
  settled := by rw [hthread]; exact h.settled
  payloads := by rw [hpushed, hreceived, hqueue, h.payloads]
  queue := by rw [hqueue]; exact h.queue

theorem Streams.chunk {buffer : Str} (h : Streams s) (hthread : s.thread = .reading buffer)
    (data : Str) :
    Streams { s with thread := .splitting (buffer ++ data), chunks := s.chunks ++ [data] } := by
  have hnext : next_frame.next buffer = none := by
    have hsettled := h.settled
    rw [hthread] at hsettled
    exact hsettled rfl
  have hframes := h.frames
  have hrest := h.rest (by rw [hthread]; nofun)
  rw [hthread, EventThread.buffer, next_frame.drain_of_none hnext] at hframes hrest
  dsimp only at hframes hrest
  rw [List.append_nil] at hframes
  refine ⟨?_, fun _ => ?_, nofun, h.payloads, h.queue⟩
  · show s.pushed ++ (next_frame.drain (buffer ++ data)).1
      = (next_frame.drain (s.chunks ++ [data]).flatten).1
    rw [next_frame.drain_flatten_snoc, ← hrest, ← hframes]
  · show (next_frame.drain (buffer ++ data)).2 = (next_frame.drain (s.chunks ++ [data]).flatten).2
    rw [next_frame.drain_flatten_snoc, ← hrest]

/-- A frame goes from the buffer to the queue. -/
theorem Streams.frame {buffer : Str} (h : Streams s) (hthread : s.thread = .splitting buffer)
    {found : SseFrame × Str} (hfound : next_frame.next buffer = some found) :
    Streams
      { s with
        thread := .splitting found.2
        transport := s.transport.push_frame found.1
        pushed := s.pushed ++ [found.1] } := by
  obtain ⟨frame, rest⟩ := found
  have hframes := h.frames
  have hrest := h.rest (by rw [hthread]; nofun)
  rw [hthread, EventThread.buffer, next_frame.drain_of_some hfound] at hframes hrest
  refine ⟨?_, fun _ => hrest, nofun, ?_, fun data hdata => ?_⟩
  · show s.pushed ++ [frame] ++ (next_frame.drain rest).1 = (next_frame.drain s.chunks.flatten).1
    rw [← hframes, List.append_assoc]
    rfl
  · show _ ++ (s.transport.push_frame frame).queue = Praxis.payloads (s.pushed ++ [frame])
    rw [SseTransport.push_frame_queue, payloads_snoc, ← h.payloads, List.append_assoc]
  · rw [SseTransport.push_frame_queue] at hdata
    rcases List.mem_append.1 hdata with hdata | hdata
    · exact h.queue data hdata
    · split_ifs at hdata with hempty
      · cases hdata
      · obtain rfl := List.mem_singleton.1 hdata
        simpa using hempty

theorem Streams.leave {buffer : Str} (h : Streams s) (hthread : s.thread = .splitting buffer)
    (hnone : next_frame.next buffer = none) : Streams { s with thread := .reading buffer } := by
  have hframes := h.frames
  have hrest := h.rest (by rw [hthread]; nofun)
  rw [hthread] at hframes hrest
  exact ⟨hframes, fun _ => hrest, fun _ => hnone, h.payloads, h.queue⟩

/-- There is no whole frame in the buffer that the end of the stream drops. -/
theorem Streams.eof {buffer : Str} (h : Streams s) (hthread : s.thread = .reading buffer) :
    Streams { s with thread := .ended, transport := s.transport.push_eof } := by
  have hframes := h.frames
  have hsettled := h.settled
  rw [hthread] at hframes hsettled
  have hnext : next_frame.next buffer = none := hsettled rfl
  rw [EventThread.buffer, next_frame.drain_of_none hnext] at hframes
  refine ⟨?_, fun hended => absurd rfl hended, fun _ => next_frame_nil, h.payloads, h.queue⟩
  rw [← hframes, EventThread.buffer, next_frame.drain_nil]

theorem Streams.receive {got : Str × SseTransport} (h : Streams s)
    (hgot : s.transport.receive = some got) :
    Streams { s with transport := got.2, received := s.received ++ [got.1] } := by
  rcases SseTransport.receive_cases hgot with ⟨-, rfl⟩ | ⟨out, queue, hqueue, rfl⟩
  · refine ⟨h.frames, h.rest, h.settled, ?_, h.queue⟩
    show (s.received ++ [[]]).filter _ ++ s.transport.queue = _
    rw [List.filter_append, ← h.payloads]
    simp
  · have hout : out ≠ [] := h.queue out (hqueue ▸ List.mem_cons_self)
    refine ⟨h.frames, h.rest, h.settled, ?_, fun data hdata => h.queue data ?_⟩
    · show (s.received ++ [out]).filter _ ++ queue = _
      rw [List.filter_append, ← h.payloads, hqueue]
      simp [hout]
    · rw [hqueue]
      exact List.mem_cons_of_mem _ hdata

theorem Streams.step (h : Streams s) (hstep : s.step a = some s') : Streams s' := by
  cases taken_of_step hstep with
  | construct => exact h.of_eq rfl rfl rfl rfl rfl
  | chunk data hthread => exact h.chunk hthread data
  | frame hthread hfound => exact h.frame hthread hfound
  | leave hthread hnone => exact h.leave hthread hnone
  | eof hthread => exact h.eof hthread
  | receive _ hgot => exact h.receive hgot
  | close => exact h.of_eq rfl rfl rfl rfl rfl

theorem steps_append : ∀ (as bs : List SseStep) (s : SseSystem),
    s.steps (as ++ bs) = (s.steps as).bind fun s => s.steps bs
  | [], _, _ => rfl
  | a :: as, bs, s => by
    rw [List.cons_append, SseSystem.steps, SseSystem.steps, Option.bind_assoc]
    exact congrArg (s.step a).bind (funext (steps_append as bs))

/-- What holds at the start and is carried over by each step holds after any steps. -/
theorem along {Q : List SseStep → SseSystem → Prop} (hstart : Q [] {})
    (hstep : ∀ as a s s', Q as s → s.step a = some s' → Q (as ++ [a]) s') {as : List SseStep}
    {s : SseSystem} (h : SseSystem.steps {} as = some s) : Q as s := by
  induction as using List.reverseRecOn generalizing s with
  | nil =>
    obtain rfl := Option.some.inj h
    exact hstart
  | append_singleton as a ih =>
    rw [steps_append] at h
    obtain ⟨s₁, hsteps, hlast⟩ := Option.bind_eq_some_iff.1 h
    obtain ⟨s₂, hone, hdone⟩ := Option.bind_eq_some_iff.1 hlast
    obtain rfl := Option.some.inj hdone
    exact hstep as a s₁ _ (ih hsteps) hone

theorem Streams.steps {as : List SseStep} (h : SseSystem.steps {} as = some s) : Streams s :=
  along (Q := fun _ s => Streams s) streams_start (fun _ _ _ _ hs hstep => hs.step hstep) h

/-- What is first on the queue is returned, also after the end of the stream. -/
theorem receive_step {out : Str} {queue : List Str} (hqueue : s.transport.queue = out :: queue)
    (hconstructed : s.constructed = true) :
    ∃ s₁, s.step .receive = some s₁ ∧ s₁.transport.queue = queue ∧ s₁.constructed = true
      ∧ s₁.received = s.received ++ [out] ∧ s₁.thread = s.thread ∧ s₁.chunks = s.chunks := by
  simp only [SseSystem.step, hconstructed, if_true, SseTransport.receive_cons hqueue]
  exact ⟨_, rfl, rfl, rfl, rfl, rfl, rfl⟩

/-- As many calls of `receive` as there is data on the queue empty it. -/
theorem drained :
    ∀ (queue : List Str) {s : SseSystem}, s.transport.queue = queue → s.constructed = true →
      ∃ s', s.steps (List.replicate queue.length .receive) = some s'
        ∧ s'.received = s.received ++ queue ∧ s'.transport.queue = [] ∧ s'.thread = s.thread
        ∧ s'.chunks = s.chunks
  | [], s, hqueue, _ => ⟨s, rfl, (List.append_nil _).symm, hqueue, rfl, rfl⟩
  | out :: queue, s, hqueue, hconstructed => by
    obtain ⟨s₁, hstep, hqueue, hconstructed, hfirst, hthread, hchunks⟩ :=
      receive_step hqueue hconstructed
    obtain ⟨s', hsteps, hreceived, hempty, hthread', hchunks'⟩ := drained queue hqueue hconstructed
    refine ⟨s', ?_, ?_, hempty, hthread'.trans hthread, hchunks'.trans hchunks⟩
    · rw [List.length_cons, List.replicate_succ, SseSystem.steps, hstep]
      exact hsteps
    · rw [hreceived, hfirst, List.append_assoc]
      rfl

/-- The frames pushed are those of the chunks, and their data has been returned or is on the queue
in order; what is on the queue is returned to those who call, also after the end of the stream. -/
structure Delivers (s : SseSystem) : Prop where
  pushing : s.pushed <+: on_chunks [] s.chunks
  pushed : s.thread.settled = true → s.pushed = on_chunks [] s.chunks
  received : (s.received.filter fun data => !data.isEmpty) ++ s.transport.queue
    = payloads s.pushed
  drained : s.constructed = true →
    ∃ s', s.steps (List.replicate s.transport.queue.length .receive) = some s'
      ∧ (s'.received.filter fun data => !data.isEmpty) = payloads s.pushed

theorem Streams.delivers (h : Streams s) : Delivers s where
  pushing := by
    rw [on_chunks_nil, ← h.frames]
    exact List.prefix_append _ _
  pushed := fun hsettled => by
    have hframes := h.frames
    rw [next_frame.drain_of_none (h.settled hsettled), List.append_nil] at hframes
    rw [on_chunks_nil, hframes]
  received := h.payloads
  drained := fun hconstructed => by
    obtain ⟨s', hsteps, hreceived, -⟩ := drained _ rfl hconstructed
    refine ⟨s', hsteps, ?_⟩
    have hqueue : (s.transport.queue.filter fun data => !data.isEmpty) = s.transport.queue :=
      List.filter_eq_self.2 fun data hdata => by simpa using h.queue data hdata
    rw [hreceived, List.filter_append, hqueue, h.payloads]

end SseSystem

/-- The frames of a stream are the same for all chunks, and they are delivered. -/
theorem frames_delivered :
    (∀ chunks chunks' : List Str, chunks.flatten = chunks'.flatten →
        on_chunks [] chunks = on_chunks [] chunks')
      ∧ ∀ (as : List SseStep) (s : SseSystem), SseSystem.steps {} as = some s → s.Delivers :=
  ⟨fun chunks chunks' h => by rw [on_chunks_nil, on_chunks_nil, h],
    fun _ _ h => (SseSystem.Streams.steps h).delivers⟩

/-- The event thread has ended before the constructor has. -/
def Overtakes (as : List SseStep) : Prop := List.Sublist [.eof, .construct] as

instance {as : List SseStep} : Decidable (Overtakes as) :=
  inferInstanceAs (Decidable (List.Sublist _ as))

theorem Overtakes.mem {as : List SseStep} (h : Overtakes as) : .construct ∈ as :=
  h.subset (by simp)

theorem overtakes_snoc {as : List SseStep} {a : SseStep} :
    Overtakes (as ++ [a]) ↔ Overtakes as ∨ a = .construct ∧ .eof ∈ as := by
  unfold Overtakes
  rw [List.sublist_append_iff]
  constructor
  · rintro ⟨l, l', hl, hsub, hsub'⟩
    rcases List.sublist_singleton.1 hsub' with rfl | rfl
    · rw [List.append_nil] at hl
      exact .inl (hl ▸ hsub)
    · have hsplit : [SseStep.eof] ++ [.construct] = l ++ [a] := hl
      obtain ⟨rfl, hlast⟩ := List.append_inj' hsplit rfl
      exact .inr ⟨(List.singleton_inj.1 hlast).symm, List.singleton_sublist.1 hsub⟩
  · rintro (h | ⟨rfl, h⟩)
    · exact ⟨_, [], (List.append_nil _).symm, h, List.nil_sublist _⟩
    · exact ⟨[.eof], [.construct], rfl, List.singleton_sublist.2 h, List.Sublist.refl _⟩

namespace SseSystem

variable {s s' : SseSystem} {as : List SseStep} {a : SseStep}

/-- What the steps say of the flags. -/
structure Flags (as : List SseStep) (s : SseSystem) : Prop where
  constructed : s.constructed = true ↔ .construct ∈ as
  ended : s.thread = .ended ↔ .eof ∈ as
  alive : s.transport.stream_alive = true ↔ .construct ∈ as ∧ (.eof ∈ as → Overtakes as)

/-- A step neither of the constructor nor of the end of the stream. -/
theorem Flags.of_eq (h : Flags as s) (hconstruct : a ≠ .construct) (heof : a ≠ .eof)
    (hconstructed : s'.constructed = s.constructed)
    (hthread : s'.thread = .ended ↔ s.thread = .ended)
    (halive : s'.transport.stream_alive = s.transport.stream_alive) : Flags (as ++ [a]) s' where
  constructed := by simp [hconstructed, h.constructed, hconstruct.symm]
  ended := by simp [hthread, h.ended, heof.symm]
  alive := by simp [halive, h.alive, overtakes_snoc, hconstruct, hconstruct.symm, heof.symm]

theorem Flags.construct (h : Flags as s) {t : SseTransport} (ht : t.stream_alive = true) :
    Flags (as ++ [.construct]) { s with constructed := true, transport := t } where
  constructed := by simp
  ended := by simpa using h.ended
  alive := by simpa [ht, overtakes_snoc] using fun heof => .inr heof

theorem Flags.eof (h : Flags as s) (hthread : s.thread ≠ .ended) {t : SseTransport}
    (ht : t.stream_alive = false) :
    Flags (as ++ [.eof]) { s with thread := .ended, transport := t } where
  constructed := by simpa using h.constructed
  ended := by simp
  alive := by
    have heof : .eof ∉ as := fun heof => hthread (h.ended.2 heof)
    have hearly : ¬ Overtakes as := fun hovertakes => heof (hovertakes.subset (by simp))
    simp [ht, overtakes_snoc, hearly]

theorem push_frame_alive (frame : SseFrame) (t : SseTransport) :
    (t.push_frame frame).stream_alive = t.stream_alive := by
  unfold SseTransport.push_frame
  split_ifs <;> rfl

theorem receive_alive {t : SseTransport} {got : Str × SseTransport} (h : t.receive = some got) :
    got.2.stream_alive = t.stream_alive := by
  rcases SseTransport.receive_cases h with ⟨-, rfl⟩ | ⟨out, queue, -, rfl⟩ <;> rfl

theorem Flags.step (h : Flags as s) (hstep : s.step a = some s') : Flags (as ++ [a]) s' := by
  cases taken_of_step hstep with
  | construct => exact h.construct rfl
  | chunk data hthread => exact h.of_eq nofun nofun rfl (by simp [hthread]) rfl
  | frame hthread => exact h.of_eq nofun nofun rfl (by simp [hthread]) (push_frame_alive _ _)
  | leave hthread => exact h.of_eq nofun nofun rfl (by simp [hthread]) rfl
  | eof hthread => exact h.eof (by simp [hthread]) rfl
  | receive _ hgot => exact h.of_eq nofun nofun rfl Iff.rfl (receive_alive hgot)
  | close => exact h.of_eq nofun nofun rfl Iff.rfl rfl

theorem flags_steps (h : SseSystem.steps {} as = some s) : Flags as s := by
  refine along ⟨by decide, by decide, by decide⟩ (fun _ _ _ _ hs hstep => hs.step hstep) h

/-- When the event thread has ended, no caller of `receive` waits, unless the thread has overtaken
the constructor and there is nothing to take and the transport does not close. -/
theorem end_seen_iff (h : SseSystem.steps {} as = some s) (hended : s.thread = .ended) :
    s.transport.ready = true
      ↔ ¬ Overtakes as ∨ s.transport.queue ≠ [] ∨ s.transport.closing = true := by
  have hflags := flags_steps h
  have halive : s.transport.stream_alive = true ↔ Overtakes as := by
    rw [hflags.alive]
    exact ⟨fun hboth => hboth.2 (hflags.ended.1 hended), fun hovertakes =>
      ⟨hovertakes.mem, fun _ => hovertakes⟩⟩
  rw [← halive]
  simp only [SseTransport.ready, Bool.or_eq_true, Bool.not_eq_true', List.isEmpty_eq_false_iff,
    Bool.not_eq_true]
  tauto

/-- The connection is closed at once, after the constructor. -/
theorem end_seen_closed :
    ∃ s, SseSystem.steps {} [.construct, .eof] = some s ∧ s.thread = .ended
      ∧ s.transport.ready = true := by
  have hsteps : SseSystem.steps {} [.construct, .eof] = some
      { transport := { stream_alive := false }, thread := .ended, constructed := true } := rfl
  exact ⟨_, hsteps, rfl, (end_seen_iff hsteps rfl).2 (.inl (by decide))⟩

/-- The connection is closed before the constructor has ended, and the callers wait for ever. -/
theorem end_missed :
    ∃ s, SseSystem.steps {} [.eof, .construct] = some s ∧ s.thread = .ended
      ∧ s.transport.ready = false ∧ ∀ a s', s.step a = some s' → a = .close := by
  refine ⟨_, rfl, rfl, rfl, fun a s' h => ?_⟩
  cases a with
  | close => rfl
  | _ => cases h

end SseSystem

end Praxis
