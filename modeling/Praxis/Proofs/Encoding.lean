import Praxis.Proofs.LineEnds

/-!
# Events written out and read back

A payload is written with a `data:` line for each of its lines and an empty line at its end. The
reader puts a newline between two lines only once it has some text, so the newlines that a payload
begins with do not come back, and a payload of newlines alone does not come back at all. All
others come back as they were (`events_read_back_iff`).
-/

namespace Praxis

open Text (unlines)

/-- A payload as an event. -/
def sse_event (payload : Str) : Str :=
  unlines 10 ((payload.splitOn 10).map (lit "data: " ++ ·) ++ [[]])

/-- A payload without the newlines it begins with. -/
def unled (payload : Str) : Str := payload.dropWhile (· == 10)

theorem mem_splitOn_field {c : UInt8} : ∀ {s l : Str}, l ∈ s.splitOn c → ∀ b ∈ l, b ∈ s ∧ b ≠ c
  | [], l, hl, b, hb => by
    rw [List.splitOn_nil, List.mem_singleton] at hl
    exact absurd (hl ▸ hb) List.not_mem_nil
  | a :: s, l, hl, b, hb => by
    have ih : ∀ l ∈ s.splitOn c, ∀ b ∈ l, b ∈ a :: s ∧ b ≠ c := fun l hl b hb =>
      (mem_splitOn_field hl b hb).imp_left (List.mem_cons_of_mem a)
    rw [List.splitOn_cons_eq_if_modifyHead] at hl
    split_ifs at hl with hac
    · rcases List.mem_cons.1 hl with rfl | hl
      · exact absurd hb List.not_mem_nil
      · exact ih l hl b hb
    · obtain ⟨first, rest, hsplit⟩ := List.exists_cons_of_ne_nil (List.splitOn_ne_nil c s)
      rw [hsplit] at ih hl
      rcases List.mem_cons.1 hl with rfl | hl
      · rcases List.mem_cons.1 hb with rfl | hb
        · exact ⟨List.mem_cons_self, by simpa using hac⟩
        · exact ih first List.mem_cons_self b hb
      · exact ih l (List.mem_cons_of_mem first hl) b hb

theorem read_line_data_line {out : SseFrame} {line : Str} (hcr : 13 ∉ line) :
    (out.read_line (lit "data: " ++ line)).data
      = (if out.data.isEmpty then [] else out.data ++ lit "\n") ++ line := by
  have hlast : (lit "data: " ++ line).getLast? ≠ some 13 := fun h => by
    rcases List.mem_append.1 (List.mem_of_getLast? h) with hmem | hmem
    · exact absurd hmem (by decide)
    · exact hcr hmem
  unfold SseFrame.read_line
  rw [if_neg hlast]
  rfl

theorem foldl_data_lines {lines : List Str} (hcr : ∀ l ∈ lines, 13 ∉ l) {out : SseFrame}
    (hout : out.data ≠ []) :
    ((lines.map (lit "data: " ++ ·)).foldl SseFrame.read_line out).data
      = out.data ++ lines.flatMap fun l => 10 :: l := by
  induction lines generalizing out with
  | nil => simp
  | cons l lines ih =>
    obtain ⟨hl, hcr⟩ := List.forall_mem_cons.1 hcr
    have hdata : (out.read_line (lit "data: " ++ l)).data = out.data ++ 10 :: l := by
      rw [read_line_data_line hl, if_neg (by simpa using hout), List.append_assoc]
      rfl
    rw [List.map_cons, List.foldl_cons, ih hcr (by rw [hdata]; simp), hdata, List.flatMap_cons,
      List.append_assoc]

theorem intercalate_newline_cons (l : Str) :
    ∀ lines : List Str, [10].intercalate (l :: lines) = l ++ lines.flatMap fun l => 10 :: l
  | [] => by simp
  | l' :: lines => by
    rw [List.intercalate_cons_cons, intercalate_newline_cons l' lines, List.flatMap_cons,
      List.append_assoc]
    rfl

/-- The lines put together again, but for the newlines before the first text. -/
theorem foldl_data_lines_start {lines : List Str} (hlines : ∀ l ∈ lines, 13 ∉ l ∧ 10 ∉ l) :
    ((lines.map (lit "data: " ++ ·)).foldl SseFrame.read_line {}).data
      = unled ([10].intercalate lines) := by
  induction lines with
  | nil => rfl
  | cons l lines ih =>
    obtain ⟨⟨hcr, hlf⟩, hrest⟩ := List.forall_mem_cons.1 hlines
    have hdata : (SseFrame.read_line {} (lit "data: " ++ l)).data = l := by
      rw [read_line_data_line hcr]
      rfl
    rw [List.map_cons, List.foldl_cons]
    rcases l with _ | ⟨c, l⟩
    · -- an empty line before any text leaves the frame as it was
      rw [show SseFrame.read_line {} (lit "data: " ++ []) = {} by decide, ih hrest]
      rcases lines with _ | ⟨l', lines⟩ <;> rfl
    · have hc : c ≠ 10 := fun h => hlf (h ▸ List.mem_cons_self)
      rw [foldl_data_lines (fun l' h => (hrest l' h).1) (by rw [hdata]; nofun), hdata,
        intercalate_newline_cons, unled, List.cons_append,
        List.dropWhile_cons_of_neg (by simpa using hc)]

/-- The frame of an event is found, and it is the payload without its first newlines. -/
theorem next_sse_event {payload : Str} (hcr : 13 ∉ payload) (rest : Str) :
    next_frame.next (sse_event payload ++ rest) = some ({ data := unled payload }, rest) := by
  have hfields : ∀ l ∈ payload.splitOn 10, 13 ∉ l ∧ 10 ∉ l := fun l hl =>
    ⟨fun h => hcr (mem_splitOn_field hl 13 h).1, fun h => (mem_splitOn_field hl 10 h).2 rfl⟩
  have hlines : ∀ l ∈ (payload.splitOn 10).map (lit "data: " ++ ·), l ≠ [] ∧ 10 ∉ l := by
    refine List.forall_mem_map.2 fun l hl => ⟨by simp [lit], fun h => ?_⟩
    rcases List.mem_append.1 h with h | h
    · exact absurd h (by decide)
    · exact (hfields l hl).2 h
  have hdata := foldl_data_lines_start hfields
  rw [List.intercalate_splitOn] at hdata
  generalize hls : (payload.splitOn 10).map (lit "data: " ++ ·) = ls at hlines hdata
  have hne : ls ≠ [] := by simp [← hls]
  obtain ⟨before, last, rfl⟩ := (List.eq_nil_or_concat' ls).resolve_left hne
  obtain ⟨hbefore, hlast⟩ := List.forall_mem_append.1 hlines
  obtain ⟨hlastne, hlastlf⟩ := hlast last List.mem_cons_self
  have hraw : unlines 10 (before ++ [last]) = unlines 10 before ++ last ++ [10] := by
    rw [Text.unlines_append, Text.unlines_cons, List.append_assoc]
    rfl
  have hstream : sse_event payload ++ rest = unlines 10 before ++ last ++ lit "\n\n" ++ rest := by
    rw [sse_event, hls, Text.unlines_append, hraw]
    simp [unlines, lit]
  have hfirst : ¬ lit "\n\n" <:+: unlines 10 before ++ last ++ (lit "\n\n").dropLast := by
    rw [show (lit "\n\n").dropLast = [10] by decide, ← hraw]
    exact Text.not_infix_unlines hlines
  have hfind := Framing.find_of_not_infix hfirst rest
  have hparse : parse_frame (unlines 10 before ++ last) = { data := unled payload } := by
    rw [parse_frame, Text.lines_unlines_append fun l hl => (hbefore l hl).2,
      Text.lines_of_not_mem hlastlf, if_neg (by simpa using hlastne), ← hdata]
  rw [hstream]
  show (Framing.find _ _).map _ = _
  rw [hfind, Option.map_some, List.append_assoc, List.take_left' rfl, hparse, ← List.append_assoc,
    List.drop_left' List.length_append]

theorem drain_events {messages : List Str} (hcr : ∀ m ∈ messages, 13 ∉ m) :
    next_frame.drain (messages.flatMap sse_event)
      = (messages.map fun m => { data := unled m }, []) := by
  induction messages with
  | nil => exact next_frame.drain_nil
  | cons m messages ih =>
    obtain ⟨hm, hcr⟩ := List.forall_mem_cons.1 hcr
    rw [List.flatMap_cons, next_frame.drain_of_some (next_sse_event hm _), ih hcr, List.map_cons]

theorem unled_length_le (m : Str) : (unled m).length ≤ m.length :=
  (List.dropWhile_suffix _).length_le

theorem unled_eq {m : Str} (h : m.head? ≠ some 10) : unled m = m := by
  rcases m with _ | ⟨c, m⟩
  · rfl
  · exact List.dropWhile_cons_of_neg (by simpa using h)

theorem unled_length_lt {m : Str} (h : m.head? = some 10) : (unled m).length < m.length := by
  rcases m with _ | ⟨c, m⟩
  · cases h
  · obtain rfl := Option.some.inj h
    exact Nat.lt_succ_of_le (unled_length_le m)

theorem map_unled_length_le (messages : List Str) :
    (messages.map unled).flatten.length ≤ messages.flatten.length := by
  induction messages with
  | nil => exact le_rfl
  | cons m messages ih =>
    have hm := unled_length_le m
    simp only [List.map_cons, List.flatten_cons, List.length_append]
    omega

/-- Where some payload loses a newline there is less text in all. -/
theorem head?_of_length_le : ∀ {messages : List Str},
    messages.flatten.length ≤ (messages.map unled).flatten.length →
      ∀ m ∈ messages, m.head? ≠ some 10
  | [], _ => nofun
  | m :: messages, h => by
    have hm := unled_length_le m
    have hrest := map_unled_length_le messages
    simp only [List.map_cons, List.flatten_cons, List.length_append] at h
    refine List.forall_mem_cons.2 ⟨fun hhead => ?_, head?_of_length_le (by omega)⟩
    have hlt := unled_length_lt hhead
    omega

theorem flatten_payloads (frames : List SseFrame) :
    (payloads frames).flatten = (frames.map (·.data)).flatten := by
  unfold payloads
  induction frames.map (·.data) with
  | nil => rfl
  | cons d ds ih =>
    rcases d with _ | ⟨c, d⟩
    · rw [List.filter_cons_of_neg (by simp), ih, List.flatten_cons, List.nil_append]
    · rw [List.filter_cons_of_pos (by simp), List.flatten_cons, ih, List.flatten_cons]

/-- Payloads written as events come back, in whatever chunks they come in, exactly if none of them
begins with a newline. -/
theorem events_read_back_iff (messages : List Str) (hne : ∀ m ∈ messages, m ≠ [])
    (hcr : ∀ m ∈ messages, 13 ∉ m) :
    (∃ got, Receives (messages.flatMap sse_event) got)
      ∧ ∀ got, Receives (messages.flatMap sse_event) got →
        (got = messages ↔ ∀ m ∈ messages, m.head? ≠ some 10) := by
  refine ⟨⟨_, receives_iff.2 rfl⟩, fun got hgot => ?_⟩
  obtain rfl := receives_iff.1 hgot
  rw [drain_events hcr]
  constructor
  · intro h
    have hflat := congrArg List.flatten h
    rw [flatten_payloads, List.map_map] at hflat
    exact head?_of_length_le (le_of_eq (congrArg List.length hflat).symm)
  · intro h
    have hkeep : messages.map unled = messages :=
      (List.map_congr_left fun m hm => unled_eq (h m hm)).trans (List.map_id _)
    rw [payloads, List.map_map]
    show (messages.map unled).filter _ = messages
    rw [hkeep, List.filter_eq_self]
    exact fun m hm => by simpa using hne m hm

theorem events_read_back_two :
    (∀ m ∈ [lit "a\n", lit "b\n\nc"], m ≠ []) ∧ (∀ m ∈ [lit "a\n", lit "b\n\nc"], 13 ∉ m)
      ∧ ∀ got, Receives ([lit "a\n", lit "b\n\nc"].flatMap sse_event) got →
        got = [lit "a\n", lit "b\n\nc"] :=
  ⟨by decide, by decide, fun got hgot => ((events_read_back_iff [lit "a\n", lit "b\n\nc"]
    (by decide) (by decide)).2 got hgot).2 (by decide)⟩

/-- The first newline of a payload does not come back. -/
theorem event_loses_newline :
    ¬ ∀ messages : List Str, (∀ m ∈ messages, m ≠ []) → (∀ m ∈ messages, 13 ∉ m) →
      ∀ got, Receives (messages.flatMap sse_event) got → got = messages :=
  fun h => absurd (h [lit "\na"] (by decide) (by decide) [lit "a"] (receives_iff.2 (by
    rw [drain_events (by decide)]
    rfl))) (by decide)

end Praxis
