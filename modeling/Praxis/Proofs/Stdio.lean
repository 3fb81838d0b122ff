import Praxis.Stdio
import Praxis.Lib.Text

/-!
# Lines through the pipes

What the child is sent is a line for every message exactly if the kernel takes every newline, of
which the caller is not told (`sends_account`). What it writes comes back line by line exactly as
long as the `i`-th read completes the `i`-th line (`receives_lines_iff`).
-/

namespace Praxis

open Text (unlines unlines_cons)

/-! ## Sending -/

/-- Bytes are taken from the front, all of them if nothing fails. -/
theorem Pipes.writeAll_spec : ∀ (p : Str) (pipes : Pipes),
    (∃ pipes', pipes.writeAll p = (.ok (), pipes') ∧ pipes'.taken = pipes.taken ++ p)
      ∨ ∃ pipes' n, pipes.writeAll p = (.error (.user "stdio write failed"), pipes')
        ∧ n < p.length ∧ pipes'.taken = pipes.taken ++ p.take n
  | p, pipes => by
    unfold writeAll
    split_ifs with hp h0
    · exact .inl ⟨pipes, rfl, by rw [hp, List.append_nil]⟩
    · refine .inr ⟨_, 0, rfl, List.length_pos_of_ne_nil hp, ?_⟩
      show pipes.taken ++ p.take (pipes.write p).1 = _
      rw [h0]
    · have hle : (pipes.write p).1 ≤ p.length := min_le_right _ _
      have htaken : (pipes.write p).2.taken = pipes.taken ++ p.take (pipes.write p).1 := rfl
      have hpos := List.length_pos_of_ne_nil hp
      obtain ⟨pipes', hrest, hall⟩ | ⟨pipes', n, hrest, hn, hall⟩ :=
        writeAll_spec (p.drop (pipes.write p).1) (pipes.write p).2
      · refine .inl ⟨pipes', hrest, ?_⟩
        rw [hall, htaken, List.append_assoc, List.take_append_drop]
      · rw [List.length_drop] at hn
        refine .inr ⟨pipes', (pipes.write p).1 + n, hrest, by omega, ?_⟩
        rw [hall, htaken, List.append_assoc, ← List.take_add]
termination_by p => p.length
decreasing_by
  rw [List.length_drop]
  omega

namespace PosixStdioTransport

/-- Messages sent one after the other; one that fails is not sent again. -/
def sends : List Str → PosixStdioTransport → List (Except Exn Unit) × PosixStdioTransport
  | [], t => ([], t)
  | payload :: payloads, t =>
    let sent := t.send payload
    let rest := sends payloads sent.2
    (sent.1 :: rest.1, rest.2)

/-- What `send` returns, or throws, and what it puts into the pipe. -/
inductive Piece (payload : Str) : Except Exn Unit → Str → Prop
  | whole : Piece payload (.ok ()) (payload ++ [newline])
  /-- The newline is lost. -/
  | unended : Piece payload (.ok ()) payload
  | short {n : ℕ} (h : n < payload.length) :
      Piece payload (.error (.user "stdio write failed")) (payload.take n)

inductive Pieces : List Str → List (Except Exn Unit) → List Str → Prop
  | nil : Pieces [] [] []
  | cons {payload : Str} {outcome : Except Exn Unit} {piece : Str} {payloads : List Str}
      {outcomes : List (Except Exn Unit)} {pieces : List Str} (h : Piece payload outcome piece)
      (hs : Pieces payloads outcomes pieces) :
      Pieces (payload :: payloads) (outcome :: outcomes) (piece :: pieces)

theorem piece_send (payload : Str) (t : PosixStdioTransport) :
    ∃ piece, Piece payload (t.send payload).1 piece
      ∧ (t.send payload).2.pipes.taken = t.pipes.taken ++ piece := by
  unfold send
  obtain ⟨pipes, hwrite, htaken⟩ | ⟨pipes, n, hwrite, hn, htaken⟩ := t.pipes.writeAll_spec payload
  · rw [hwrite]
    show ∃ piece, Piece payload (.ok ()) piece
      ∧ pipes.taken ++ [newline].take (pipes.write [newline]).1 = t.pipes.taken ++ piece
    rw [htaken, List.append_assoc]
    rcases (pipes.write [newline]).1 with _ | n
    · exact ⟨payload, .unended, by rw [List.take_zero, List.append_nil]⟩
    · exact ⟨payload ++ [newline], .whole, by rw [List.take_succ_cons, List.take_nil]⟩
  · rw [hwrite]
    exact ⟨payload.take n, .short hn, htaken⟩

theorem pieces_sends : ∀ (payloads : List Str) (t : PosixStdioTransport),
    ∃ pieces, Pieces payloads (sends payloads t).1 pieces
      ∧ (sends payloads t).2.pipes.taken = t.pipes.taken ++ pieces.flatten
  | [], t => ⟨[], .nil, by rw [List.flatten_nil, List.append_nil]; rfl⟩
  | payload :: payloads, t => by
    obtain ⟨piece, hpiece, htaken⟩ := piece_send payload t
    obtain ⟨pieces, hpieces, hrest⟩ := pieces_sends payloads (t.send payload).2
    refine ⟨piece :: pieces, .cons hpiece hpieces, ?_⟩
    rw [List.flatten_cons, ← List.append_assoc, ← htaken]
    exact hrest

variable {payload piece : Str} {outcome : Except Exn Unit} {payloads pieces : List Str}
  {outcomes : List (Except Exn Unit)}

/-- Only a whole piece has a newline. -/
theorem Piece.count (h : Piece payload outcome piece) (hpayload : newline ∉ payload) :
    piece = payload ++ [newline] ∧ piece.count newline = 1 ∨ piece.count newline = 0 := by
  cases h with
  | whole =>
    refine .inl ⟨rfl, ?_⟩
    rw [List.count_append, List.count_eq_zero_of_not_mem hpayload]
    rfl
  | unended => exact .inr (List.count_eq_zero_of_not_mem hpayload)
  | short hn =>
    exact .inr (List.count_eq_zero_of_not_mem fun hmem => hpayload (List.mem_of_mem_take hmem))

theorem count_unlines : ∀ {ls : List Str}, (∀ l ∈ ls, newline ∉ l) →
    (unlines newline ls).count newline = ls.length
  | [], _ => rfl
  | l :: ls, h => by
    obtain ⟨hl, hls⟩ := List.forall_mem_cons.1 h
    rw [unlines_cons, List.count_append, List.count_eq_zero_of_not_mem hl, List.count_cons_self,
      count_unlines hls, List.length_cons, Nat.zero_add]

theorem Pieces.count_le (h : Pieces payloads outcomes pieces)
    (hpayloads : ∀ p ∈ payloads, newline ∉ p) :
    pieces.flatten.count newline ≤ payloads.length
      ∧ (pieces.flatten.count newline = payloads.length →
        pieces = payloads.map (· ++ [newline])) := by
  induction h with
  | nil => exact ⟨le_refl 0, fun _ => rfl⟩
  | cons hpiece _ ih =>
    obtain ⟨hpayload, hrest⟩ := List.forall_mem_cons.1 hpayloads
    obtain ⟨hle, heq⟩ := ih hrest
    rw [List.flatten_cons, List.count_append, List.length_cons]
    obtain ⟨hwhole, hcount⟩ | hcount := hpiece.count hpayload
    · exact ⟨by omega, fun h => by rw [hwhole, heq (by omega)]; rfl⟩
    · exact ⟨by omega, fun h => by omega⟩

/-- For every message there is one piece in the pipe, and the pieces are the messages' lines exactly
if none of them lacks its newline. -/
theorem sends_account (payloads : List Str) (hpayloads : ∀ p ∈ payloads, newline ∉ p)
    (t : PosixStdioTransport) :
    ∃ pieces, Pieces payloads (sends payloads t).1 pieces
      ∧ (sends payloads t).2.pipes.taken = t.pipes.taken ++ pieces.flatten
      ∧ (pieces.flatten = unlines newline payloads ↔ pieces = payloads.map (· ++ [newline])) := by
  obtain ⟨pieces, hpieces, htaken⟩ := pieces_sends payloads t
  refine ⟨pieces, hpieces, htaken, fun h => ?_, fun h => ?_⟩
  · exact (hpieces.count_le hpayloads).2 (by rw [h, count_unlines hpayloads])
  · rw [h, unlines, List.flatMap_def]

/-- The second newline is lost, so two messages come as one line. -/
theorem sends_account_glued :
    ∃ pieces, Pieces ["a", "bc", "d"]
        (sends ["a", "bc", "d"] { pipes := { takes := [1, 1, 1, 5, 0, 1, 1] } }).1 pieces
      ∧ lit "a\nbcd\n" = [] ++ pieces.flatten
      ∧ (pieces.flatten = unlines newline ["a", "bc", "d"]
        ↔ pieces = [lit "a", lit "bc", lit "d"].map (· ++ [newline])) := by
  have hsent :
      (sends ["a", "bc", "d"] { pipes := { takes := [1, 1, 1, 5, 0, 1, 1] } }).2.pipes.taken
        = lit "a\nbcd\n" := by
    simp [sends, send, Pipes.writeAll, Pipes.write, lit, newline]
  rw [← hsent]
  exact sends_account ["a", "bc", "d"] (by decide) { pipes := { takes := [1, 1, 1, 5, 0, 1, 1] } }

/-! ## Receiving -/

/-- Messages received one after the other. -/
def receives : ℕ → PosixStdioTransport → List Str × PosixStdioTransport
  | 0, t => ([], t)
  | n + 1, t =>
    let rest := receives n t.receive.2
    (t.receive.1 :: rest.1, rest.2)

/-- What has come in and what is to come. -/
def toCome (t : PosixStdioTransport) : Str := t.buffer ++ t.pipes.brings.flatten

theorem find_newline_eq_none {s : Str} (h : newline ∉ s) : Framing.find [newline] s = none := by
  rw [Framing.find_eq_none_iff]
  exact fun hin => h (hin.subset List.mem_cons_self)

variable {buffer chunk : Str} {chunks : List Str} {takes : List ℕ} {taken : Str}

/-- A read that brings a newline: the first line is popped. -/
theorem receive_line (hchunk : chunk ≠ []) {l rest : Str} (hl : newline ∉ l)
    (h : buffer ++ chunk = l ++ newline :: rest) :
    receive ⟨buffer, [], ⟨takes, chunk :: chunks, taken⟩⟩
      = (l, ⟨rest, [], ⟨takes, chunks, taken⟩⟩) := by
  unfold receive Pipes.read
  dsimp only
  rw [if_neg (by simp), List.headD_cons, if_neg hchunk, List.tail_cons, h]
  unfold pop_line
  dsimp only
  rw [Framing.find_singleton rest hl]
  dsimp only
  rw [List.take_left, List.drop_append, List.drop_of_length_le (Nat.le_succ _), List.nil_append,
    Nat.add_sub_cancel_left, List.drop_succ_cons, List.drop_zero]

/-- A read that brings no newline: all that there is is popped. -/
theorem receive_piece (hchunk : chunk ≠ []) (h : newline ∉ buffer ++ chunk) :
    receive ⟨buffer, [], ⟨takes, chunk :: chunks, taken⟩⟩
      = (buffer ++ chunk, ⟨[], [], ⟨takes, chunks, taken⟩⟩) := by
  unfold receive Pipes.read
  dsimp only
  rw [if_neg (by simp), List.headD_cons, if_neg hchunk, List.tail_cons]
  unfold pop_line
  rw [find_newline_eq_none h]

variable (takes taken) in
/-- One message takes off one newline at most. -/
theorem count_toCome_receives : ∀ (n : ℕ) (buffer : Str) (chunks : List Str),
    (∀ c ∈ chunks, c ≠ []) → n ≤ chunks.length →
    (toCome ⟨buffer, [], ⟨takes, chunks, taken⟩⟩).count newline
      ≤ (toCome (receives n ⟨buffer, [], ⟨takes, chunks, taken⟩⟩).2).count newline + n
  | 0, _, _, _, _ => le_refl _
  | n + 1, buffer, chunk :: chunks, hne, hn => by
    obtain ⟨hchunk, hchunks⟩ := List.forall_mem_cons.1 hne
    have hn : n ≤ chunks.length := by simpa using hn
    obtain ⟨ls, tail, hls, htail, hsplit⟩ := Text.exists_lines newline (buffer ++ chunk)
    have hcount : (toCome ⟨buffer, [], ⟨takes, chunk :: chunks, taken⟩⟩).count newline
        = (buffer ++ chunk).count newline + chunks.flatten.count newline := by
      unfold toCome
      rw [List.flatten_cons, ← List.append_assoc, List.count_append]
    rw [hcount, receives]
    cases ls with
    | nil =>
      have hnone : newline ∉ buffer ++ chunk := by rwa [hsplit]
      rw [receive_piece hchunk hnone, List.count_eq_zero_of_not_mem hnone]
      have ih := count_toCome_receives n [] chunks hchunks hn
      unfold toCome at ih ⊢
      rw [List.nil_append] at ih
      dsimp only at ih ⊢
      omega
    | cons l ls =>
      obtain ⟨hl, -⟩ := List.forall_mem_cons.1 hls
      rw [unlines_cons, List.append_assoc, List.cons_append] at hsplit
      rw [receive_line hchunk hl hsplit, hsplit, List.count_append,
        List.count_eq_zero_of_not_mem hl, List.count_cons_self]
      have ih := count_toCome_receives n (unlines newline ls ++ tail) chunks hchunks hn
      unfold toCome at ih ⊢
      rw [show ((unlines newline ls ++ tail) ++ chunks.flatten).count newline
        = (unlines newline ls ++ tail).count newline + chunks.flatten.count newline
        from List.count_append] at ih
      dsimp only at ih ⊢
      omega

/-- A piece without a newline is shorter than the line that the stream begins with. -/
theorem length_lt_of_piece {piece rest l : Str} {ls : List Str} (hnone : newline ∉ piece)
    (hstream : piece ++ rest = unlines newline (l :: ls)) :
    piece.length < (l ++ [newline]).length := by
  by_contra hle
  have hline : l ++ [newline] <+: piece := by
    refine List.prefix_of_prefix_length_le ?_ (List.prefix_append piece rest) (not_lt.1 hle)
    rw [hstream, unlines_cons]
    exact ⟨unlines newline ls, by rw [List.append_assoc]; rfl⟩
  exact hnone (hline.subset (List.mem_append_right _ List.mem_cons_self))

variable (takes taken) in
/-- After a piece without a newline there is a newline too many still to come. -/
theorem toCome_ne_of_piece {piece l : Str} {ls : List Str} {n : ℕ}
    (hls : ∀ l' ∈ l :: ls, newline ∉ l') (hnone : newline ∉ piece)
    (hstream : piece ++ chunks.flatten = unlines newline (l :: ls))
    (hchunks : ∀ c ∈ chunks, c ≠ []) (hle : n ≤ ls.length) (hn : n ≤ chunks.length) :
    toCome (receives n ⟨[], [], ⟨takes, chunks, taken⟩⟩).2 ≠ unlines newline (ls.drop n) := by
  intro h
  have hcount := count_toCome_receives takes taken n [] chunks hchunks hn
  rw [h, count_unlines fun l' hl' => hls l' (List.mem_cons_of_mem _ (List.mem_of_mem_drop hl')),
    List.length_drop] at hcount
  have hall := congrArg (List.count newline) hstream
  rw [count_unlines hls, List.count_append, List.count_eq_zero_of_not_mem hnone,
    List.length_cons] at hall
  unfold toCome at hcount
  rw [List.nil_append] at hcount
  dsimp only at hcount
  omega

variable (takes taken) in
theorem receives_lines : ∀ (n : ℕ) (ls : List Str) (buffer : Str) (chunks : List Str),
    (∀ l ∈ ls, newline ∉ l) → (∀ c ∈ chunks, c ≠ []) → n ≤ ls.length → n ≤ chunks.length →
    buffer ++ chunks.flatten = unlines newline ls →
    ((receives n ⟨buffer, [], ⟨takes, chunks, taken⟩⟩).1 = ls.take n
        ∧ toCome (receives n ⟨buffer, [], ⟨takes, chunks, taken⟩⟩).2
          = unlines newline (ls.drop n)
      ↔ ∀ i ≤ n, (unlines newline (ls.take i)).length
        ≤ buffer.length + (chunks.take i).flatten.length)
  | 0, ls, buffer, chunks, _, _, _, _, hstream => by
    refine iff_of_true ⟨rfl, hstream⟩ fun i hi => ?_
    rw [Nat.le_zero.1 hi]
    exact Nat.zero_le _
  | n + 1, l :: ls, buffer, chunk :: chunks, hls, hne, hn, hn', hstream => by
    obtain ⟨hl, hrest⟩ := List.forall_mem_cons.1 hls
    obtain ⟨hchunk, hchunks⟩ := List.forall_mem_cons.1 hne
    have hle : n ≤ ls.length := Nat.le_of_succ_le_succ hn
    have hle' : n ≤ chunks.length := Nat.le_of_succ_le_succ hn'
    rw [List.flatten_cons, ← List.append_assoc] at hstream
    obtain ⟨whole, tail, hwhole, htail, hsplit⟩ := Text.exists_lines newline (buffer ++ chunk)
    cases whole with
    | nil =>
      have hnone : newline ∉ buffer ++ chunk := by rwa [hsplit]
      rw [receives, receive_piece hchunk hnone]
      refine iff_of_false (fun h => toCome_ne_of_piece takes taken hls hnone hstream hchunks hle
        hle' h.2) fun h => ?_
      have hlong := h 1 (Nat.le_add_left 1 n)
      rw [List.take_succ_cons, List.take_zero, List.take_succ_cons, List.take_zero,
        List.flatten_singleton, ← List.length_append] at hlong
      exact absurd (length_lt_of_piece hnone hstream)
        (Nat.not_lt_of_le (by simpa [unlines] using hlong))
    | cons l' whole =>
      obtain ⟨hl', -⟩ := List.forall_mem_cons.1 hwhole
      rw [unlines_cons, List.append_assoc, List.cons_append] at hsplit
      rw [hsplit, unlines_cons, List.append_assoc, List.cons_append] at hstream
      obtain ⟨rfl, hrest'⟩ := Text.append_sep_inj hl' hl hstream
      have ih := receives_lines n ls (unlines newline whole ++ tail) chunks hrest hchunks hle
        hle' hrest'
      have hlength := congrArg List.length hsplit
      rw [List.length_append, List.length_append, List.length_cons] at hlength
      rw [receives, receive_line hchunk hl' hsplit, List.take_succ_cons, List.drop_succ_cons]
      dsimp only
      rw [List.cons.injEq, and_iff_right rfl, ih]
      constructor
      · rintro h (_ | i) hi
        · exact Nat.zero_le _
        · have hnext := h i (by omega)
          rw [List.take_succ_cons, unlines_cons, List.take_succ_cons, List.flatten_cons,
            List.length_append, List.length_append, List.length_cons]
          omega
      · intro h i hi
        have hnext := h (i + 1) (by omega)
        rw [List.take_succ_cons, unlines_cons, List.take_succ_cons, List.flatten_cons,
          List.length_append, List.length_append, List.length_cons] at hnext
        omega

/-- The child's lines come back one by one, with nothing lost behind them, exactly if they are
completed as fast as they are asked for. -/
theorem receives_lines_iff (ls chunks : List Str) (n : ℕ) (hls : ∀ l ∈ ls, newline ∉ l)
    (hchunks : ∀ c ∈ chunks, c ≠ []) (hn : n ≤ ls.length) (hn' : n ≤ chunks.length)
    (hstream : chunks.flatten = unlines newline ls) :
    let received := receives n { pipes := { brings := chunks } }
    (received.1 = ls.take n
        ∧ received.2.buffer ++ received.2.pipes.brings.flatten = unlines newline (ls.drop n)) ↔
      ∀ i ≤ n, (unlines newline (ls.take i)).length ≤ (chunks.take i).flatten.length := by
  have h := receives_lines [] [] n ls [] chunks hls hchunks hn hn' hstream
  simpa [toCome] using h

/-- The second line comes in two reads. -/
theorem receives_lines_iff_torn :
    (receives 2 { pipes := { brings := ["a\nb", "c\n"] } }).1 = ["a", "bc"]
      ∧ (receives 2 { pipes := { brings := ["a\nb", "c\n"] } }).2.buffer ++ [] = [] :=
  (receives_lines_iff ["a", "bc"] ["a\nb", "c\n"] 2 (by decide) (by decide) (by decide) (by decide)
    (by decide)).2 (by decide)

end PosixStdioTransport

end Praxis
