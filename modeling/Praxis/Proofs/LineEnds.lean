import Praxis.Proofs.Sse

/-!
# Line ends

`parse_frame` takes a carriage return off the end of a line, but `on_chunk` looks for frames in the
bytes as they come in, and where lines end in two bytes there is never an empty line to be found.
So a stream gives the same with either kind of line ends exactly if it gives nothing
(`line_ends_iff`).
-/

namespace Praxis

open Text (unlines)

/-- The text with another end on each line. -/
def crlf (s : Str) : Str := s.flatMap fun c => if c = 10 then [13, 10] else [c]

/-- What the callers of `receive` have got of a stream, once all of it is read and taken. -/
def Receives (stream : Str) (got : List Str) : Prop :=
  ∃ as s, SseSystem.steps {} as = some s ∧ s.thread = .ended ∧ s.transport.queue = []
    ∧ s.chunks.flatten = stream ∧ got = s.received.filter fun data => !data.isEmpty

/-- A `data:` line with more than a blank after the colon. -/
def HasData (line : Str) : Prop :=
  let line := if line.getLast? = some 13 then line.dropLast else line
  starts_with "data:" line = true ∧ line ≠ "data:" ∧ line ≠ "data: "

/-- There is a line with data, and an empty line somewhere after it. -/
def Announces (stream : Str) : Prop :=
  ∃ before line after rest, stream = unlines 10 (before ++ line :: after) ++ rest
    ∧ (∀ l ∈ before ++ line :: after, 10 ∉ l) ∧ HasData line ∧ [] ∈ after

theorem unblanked_eq_nil {payload : Str} :
    (if payload.head? = some 32 then payload.tail else payload) = []
      ↔ payload = [] ∨ payload = [32] := by
  rcases payload with _ | ⟨c, payload⟩
  · simp
  · by_cases hc : c = 32
    · simp [hc]
    · simp [hc]

theorem read_line_data {out : SseFrame} {line : Str} :
    (out.read_line line).data = [] ↔ out.data = [] ∧ ¬ HasData line := by
  unfold SseFrame.read_line HasData
  dsimp only
  generalize (if line.getLast? = some 13 then line.dropLast else line) = line
  by_cases hdata : starts_with "data:" line = true
  · obtain ⟨payload, rfl⟩ := List.isPrefixOf_iff_prefix.1 hdata
    have hcolon : lit "data:" ++ payload = lit "data:" ↔ payload = [] :=
      List.append_right_eq_self
    have hblank : lit "data:" ++ payload = lit "data: " ↔ payload = [32] :=
      List.append_right_inj (lit "data:")
    rw [if_pos hdata, List.drop_left' (by decide), List.append_eq_nil_iff, unblanked_eq_nil,
      ← hcolon, ← hblank]
    rcases out.data with _ | ⟨d, data⟩
    · simp only [hdata, List.isEmpty_nil, if_true, true_and]
      tauto
    · simp
  · rw [if_neg hdata]
    simp [hdata]

theorem foldl_read_line_data :
    ∀ {lines : List Str} {out : SseFrame}, (lines.foldl SseFrame.read_line out).data = []
      ↔ out.data = [] ∧ ∀ line ∈ lines, ¬ HasData line
  | [], out => by simp
  | line :: lines, out => by
    rw [List.foldl_cons, foldl_read_line_data, read_line_data, List.forall_mem_cons, and_assoc]

theorem not_hasData_nil : ¬ HasData [] := fun h => absurd h.1 (by decide)

/-- The data of a frame comes from its lines, wherever the last of them ends. -/
theorem parse_frame_data {raw : Str} {lines : List Str} (hlines : ∀ l ∈ lines, 10 ∉ l)
    (hraw : raw ++ [10] = unlines 10 lines) :
    (parse_frame raw).data = [] ↔ ∀ line ∈ lines, ¬ HasData line := by
  rcases List.eq_nil_or_concat lines with rfl | ⟨before, last, rfl⟩
  · simp [unlines] at hraw
  · rw [List.concat_eq_append] at hlines hraw ⊢
    obtain ⟨hbefore, hlast⟩ := List.forall_mem_append.1 hlines
    have hraw : raw = unlines 10 before ++ last := by
      rw [Text.unlines_append, Text.unlines_cons, ← List.append_assoc] at hraw
      exact List.append_cancel_right hraw
    rw [parse_frame, hraw, Text.lines_unlines_append hbefore,
      Text.lines_of_not_mem (hlast last List.mem_cons_self), foldl_read_line_data]
    rcases last with _ | ⟨c, last⟩
    · simp [not_hasData_nil, or_imp, forall_and]
    · simp [or_imp, forall_and]

/-- The lines up to an empty one, and what comes after it. -/
theorem announces_append {lines : List Str} {rest : Str} (hlines : ∀ l ∈ lines, 10 ∉ l) :
    Announces (unlines 10 (lines ++ [[]]) ++ rest)
      ↔ (∃ line ∈ lines, HasData line) ∨ Announces rest := by
  have hlines' : ∀ l ∈ lines ++ [[]], 10 ∉ l :=
    List.forall_mem_append.2 ⟨hlines, List.forall_mem_singleton.2 List.not_mem_nil⟩
  constructor
  · rintro ⟨before, line, after, rest', hsplit, hall, hdata, hempty⟩
    have hline : line ∈ before ++ line :: after := by simp
    have hfirst : line ∈ lines ++ [[]] → ∃ line ∈ lines, HasData line := fun hmem => by
      rcases List.mem_append.1 hmem with hmem | hmem
      · exact ⟨line, hmem, hdata⟩
      · exact (not_hasData_nil (List.mem_singleton.1 hmem ▸ hdata)).elim
    rcases Text.unlines_append_eq hlines' hall hsplit with ⟨more, hmore, hrest⟩ | ⟨more, hmore, -⟩
    · rcases List.append_eq_append_iff.1 hmore with ⟨mid, hmid, htail⟩ | ⟨mid, hmid, htail⟩
      · cases mid with
        | nil =>
          refine .inr ⟨[], line, after, rest', by rw [hrest, List.nil_append, htail]; rfl, ?_,
            hdata, hempty⟩
          exact (List.forall_mem_append.1 hall).2
        | cons first mid =>
          obtain ⟨rfl, -⟩ := List.cons.inj htail
          exact .inl (hfirst (by simp [hmid]))
      · refine .inr ⟨mid, line, after, rest', by rw [hrest, htail], ?_, hdata, hempty⟩
        rw [hmid, List.append_assoc] at hall
        exact (List.forall_mem_append.1 hall).2
    · exact .inl (hfirst (hmore ▸ List.mem_append_left _ hline))
  · rintro (⟨line, hline, hdata⟩ | ⟨before, line, after, rest', rfl, hall, hdata, hempty⟩)
    · obtain ⟨before, after, rfl⟩ := List.append_of_mem hline
      refine ⟨before, line, after ++ [[]], rest, ?_, ?_, hdata, by simp⟩
      · rw [List.append_assoc, List.cons_append]
      · simpa using hlines'
    · refine ⟨lines ++ [[]] ++ before, line, after, rest', ?_, ?_, hdata, hempty⟩
      · rw [List.append_assoc (lines ++ [[]]), Text.unlines_append (lines ++ [[]]),
          List.append_assoc]
      · rw [List.append_assoc (lines ++ [[]])]
        exact List.forall_mem_append.2 ⟨hlines', hall⟩

/-- A stream announces something only if there is a frame in it. -/
theorem Announces.infix {stream : Str} (h : Announces stream) : lit "\n\n" <:+: stream := by
  obtain ⟨before, line, after, rest, rfl, -, -, hempty⟩ := h
  obtain ⟨between, after, rfl⟩ := List.append_of_mem hempty
  have hlast : ∃ s, unlines 10 (before ++ line :: between) = s ++ [10] := by
    obtain ⟨init, last, hinit⟩ : ∃ init last, before ++ line :: between = init ++ [last] :=
      (List.eq_nil_or_concat' _).resolve_left (by simp)
    exact ⟨unlines 10 init ++ last, by
      rw [hinit, Text.unlines_append, Text.unlines_cons, ← List.append_assoc]; rfl⟩
  obtain ⟨s, hs⟩ := hlast
  refine ⟨s, unlines 10 after ++ rest, ?_⟩
  rw [show before ++ line :: (between ++ [] :: after) = before ++ line :: between ++ [] :: after by
    simp, Text.unlines_append, hs, Text.unlines_cons]
  simp [lit]

theorem payloads_cons (frame : SseFrame) (frames : List SseFrame) :
    payloads (frame :: frames) = [] ↔ frame.data = [] ∧ payloads frames = [] := by
  unfold payloads
  rw [List.map_cons, List.filter_cons]
  rcases frame.data with _ | ⟨c, data⟩ <;> simp

theorem next_frame_eq_some {stream rest : Str} {frame : SseFrame}
    (h : next_frame.next stream = some (frame, rest)) :
    ∃ raw, stream = raw ++ lit "\n\n" ++ rest ∧ frame = parse_frame raw := by
  obtain ⟨pos, hpos, hframe⟩ := Option.map_eq_some_iff.1 h
  obtain ⟨rfl, rfl⟩ := Prod.mk.inj hframe
  exact ⟨_, (Framing.take_append_drop_of_find hpos).symm, rfl⟩

theorem payloads_drain (stream : Str) :
    payloads (next_frame.drain stream).1 = [] ↔ ¬ Announces stream := by
  induction stream using next_frame.induct with
  | stop stream h =>
    have hfind : Framing.find (lit "\n\n") stream = none := Option.map_eq_none_iff.1 h
    rw [next_frame.drain_of_none h]
    exact iff_of_true rfl fun hannounces =>
      Framing.find_eq_none_iff.1 hfind hannounces.infix
  | step stream frame rest h ih =>
    obtain ⟨raw, rfl, rfl⟩ := next_frame_eq_some h
    obtain ⟨lines, tail, hlines, htail, hraw⟩ := Text.exists_lines 10 raw
    have hended : raw ++ [10] = unlines 10 (lines ++ [tail]) := by
      rw [hraw, Text.unlines_append, Text.unlines_cons, ← List.append_assoc]
      rfl
    have hall : ∀ l ∈ lines ++ [tail], 10 ∉ l :=
      List.forall_mem_append.2 ⟨hlines, List.forall_mem_singleton.2 htail⟩
    have hstream : raw ++ lit "\n\n" ++ rest = unlines 10 (lines ++ [tail] ++ [[]]) ++ rest := by
      rw [Text.unlines_append, ← hended]
      simp [lit, unlines]
    rw [next_frame.drain_of_some h, payloads_cons, parse_frame_data hall hended, ih, hstream,
      announces_append hall, not_or]
    simp only [not_exists, not_and]

theorem crlf_cons (c : UInt8) (s : Str) :
    crlf (c :: s) = (if c = 10 then [13, 10] else [c]) ++ crlf s := rfl

theorem not_prefix_crlf : ∀ s : Str, ¬ [10] <+: crlf s
  | [] => by simp [crlf]
  | c :: s => by
    rw [crlf_cons]
    split_ifs with hc
    · simp
    · simp [Ne.symm hc]

/-- There is no empty line to be found. -/
theorem not_infix_crlf : ∀ s : Str, ¬ [10, 10] <:+: crlf s
  | [] => by simp [crlf]
  | c :: s => by
    have ih := not_infix_crlf s
    have hnot := not_prefix_crlf s
    rw [crlf_cons]
    split_ifs with hc
    · simp [List.infix_cons_iff, hnot, ih]
    · simp [List.infix_cons_iff, Ne.symm hc, ih]

theorem drain_crlf (stream : Str) : next_frame.drain (crlf stream) = ([], crlf stream) := by
  refine next_frame.drain_of_none (Option.map_eq_none_iff.2 (Framing.find_eq_none_iff.2 ?_))
  exact not_infix_crlf stream

namespace SseSystem

/-- The event thread can take all frames out of what it has read. -/
theorem split_all (buffer : Str) :
    ∀ {s : SseSystem}, s.thread = .splitting buffer →
      ∃ as s', s.steps as = some s' ∧ s'.thread = .reading (next_frame.drain buffer).2
        ∧ s'.constructed = s.constructed ∧ s'.chunks = s.chunks := by
  induction buffer using next_frame.induct with
  | stop buffer h =>
    intro s hthread
    refine ⟨[.leave], { s with thread := .reading buffer }, ?_, ?_, rfl, rfl⟩
    · simp [steps, step, hthread, h]
    · rw [next_frame.drain_of_none h]
  | step buffer frame rest h ih =>
    intro s hthread
    obtain ⟨s₁, hstep, hsplitting, hconstructed, hchunks⟩ : ∃ s₁, s.step .frame = some s₁
        ∧ s₁.thread = .splitting rest ∧ s₁.constructed = s.constructed
        ∧ s₁.chunks = s.chunks := by
      simp only [step, hthread, h, Option.map_some]
      exact ⟨_, rfl, rfl, rfl, rfl⟩
    obtain ⟨as, s', hsteps, hthread', hconstructed', hchunks'⟩ := ih hsplitting
    refine ⟨.frame :: as, s', ?_, ?_, hconstructed'.trans hconstructed, hchunks'.trans hchunks⟩
    · rw [steps, hstep, Option.bind_some, hsteps]
    · rw [hthread', next_frame.drain_of_some h]

/-- A stream that comes in as one chunk, is read to its end and taken off the queue. -/
theorem received_all (stream : Str) :
    ∃ as s, steps {} as = some s ∧ s.thread = .ended ∧ s.transport.queue = []
      ∧ s.chunks.flatten = stream := by
  obtain ⟨s₁, hstart, hsplitting, hconstructed, hchunks⟩ : ∃ s₁,
      steps {} [.construct, .chunk stream] = some s₁ ∧ s₁.thread = .splitting stream
        ∧ s₁.constructed = true ∧ s₁.chunks = [stream] := ⟨_, rfl, rfl, rfl, rfl⟩
  obtain ⟨as, s₂, hsplit, hreading, hconstructed₂, hchunks₂⟩ := split_all stream hsplitting
  obtain ⟨s₃, heof, hended, hconstructed₃, hchunks₃⟩ : ∃ s₃, s₂.step .eof = some s₃
      ∧ s₃.thread = .ended ∧ s₃.constructed = s₂.constructed ∧ s₃.chunks = s₂.chunks := by
    simp only [step, hreading]
    exact ⟨_, rfl, rfl, rfl, rfl⟩
  obtain ⟨s₄, hdrained, -, hqueue, hthread, hchunks₄⟩ :=
    drained _ rfl (hconstructed₃.trans (hconstructed₂.trans hconstructed))
  refine ⟨[.construct, .chunk stream] ++ (as ++ .eof ::
    List.replicate s₃.transport.queue.length .receive), s₄, ?_, hthread.trans hended, hqueue, ?_⟩
  · rw [steps_append, hstart, Option.bind_some, steps_append, hsplit, Option.bind_some, steps,
      heof, Option.bind_some, hdrained]
  · rw [hchunks₄, hchunks₃, hchunks₂, hchunks, List.flatten_singleton]

end SseSystem

/-- Every stream can be received, and however that comes about it gives the data of its frames. -/
theorem receives_iff {stream : Str} {got : List Str} :
    Receives stream got ↔ got = payloads (next_frame.drain stream).1 := by
  constructor
  · rintro ⟨as, s, hsteps, hended, hqueue, rfl, rfl⟩
    have hstreams := SseSystem.Streams.steps hsteps
    have hframes := hstreams.frames
    have hpayloads := hstreams.payloads
    rw [hended, EventThread.buffer, next_frame.drain_nil, List.append_nil] at hframes
    rw [hqueue, List.append_nil] at hpayloads
    rw [hpayloads, hframes]
  · rintro rfl
    obtain ⟨as, s, hsteps, hended, hqueue, hchunks⟩ := SseSystem.received_all stream
    have hstreams := SseSystem.Streams.steps hsteps
    have hframes := hstreams.frames
    have hpayloads := hstreams.payloads
    rw [hended, EventThread.buffer, next_frame.drain_nil, List.append_nil, hchunks] at hframes
    rw [hqueue, List.append_nil] at hpayloads
    exact ⟨as, s, hsteps, hended, hqueue, hchunks, by rw [hpayloads, hframes]⟩

/-- A stream gives the same with line ends of one byte and of two exactly if no line with data in
it is followed by an empty line. -/
theorem line_ends_iff (stream : Str) :
    (∀ got got', Receives stream got → Receives (crlf stream) got' → got' = got)
      ↔ ¬ Announces stream := by
  simp only [receives_iff, drain_crlf]
  rw [← payloads_drain]
  exact ⟨fun h => (h _ _ rfl rfl).symm, fun h got got' hgot hgot' => by rw [hgot, hgot', h]; rfl⟩

/-- One message, which comes in whole or not at all. -/
theorem line_ends_differ :
    ¬ ∀ got got', Receives "data: a\n\n" got → Receives (crlf "data: a\n\n") got' → got' = got :=
  fun h => absurd (h [lit "a"] [] (receives_iff.2 (by decide +kernel)) (receives_iff.2 (by
    rw [drain_crlf]
    rfl))) (by decide)

end Praxis
