/-
ForwardProxy.IdList.DecoderTheorems — the decoder does not see where a
download is cut (`CompleteLineDecoder`).

`pushAll` feeds the chunks of a download one after another.
`pushAll_eq_push` is the result the rest stands on: from any decoder whose
buffer holds no newline, the chunks give what one push of their
concatenation gives, errors included. What a push reports is then read
off the complete lines of the whole string: `endOffsets_completeLines`
places the offsets just after the newlines, and `push_restart` starts a
second decoder at one of them.

`WellFormedLine` and `CompleteLine` say what a line and a complete line
are without the decoder.
-/
import Mathlib.Data.List.Basic
import ForwardProxy.IdList.ParserTheorems

namespace ForwardProxy.IdList

open CompleteLineDecoder

/-! ## What a well-formed file is -/

/-- A line of a file: blank, or a sign and the bytes of a non-empty
member. A trailing `\r` does not count. -/
def WellFormedLine (line : List UInt8) : Prop :=
  stripCr line = [] ∨ ∃ (sign : UInt8) (member : String),
    (sign = '+'.toUInt8 ∨ sign = '-'.toUInt8) ∧ member ≠ "" ∧
      stripCr line = sign :: member.toByteArray.data.toList

/-- `line` stands in `bytes` between a line start and a newline. -/
def CompleteLine (bytes line : List UInt8) : Prop :=
  ∃ before after, bytes = before ++ line ++ newline :: after ∧ newline ∉ line ∧
    (before = [] ∨ before.getLast? = some newline)

/-- Where the newlines of a byte string stand. -/
def newlinePositions (bytes : List UInt8) : List Nat :=
  (List.range bytes.length).filter fun i => bytes[i]? = some newline

theorem fromUTF8_eq_some_iff (bytes : List UInt8) (m : String) :
    String.fromUTF8? ⟨bytes.toArray⟩ = some m ↔ bytes = m.toByteArray.data.toList := by
  unfold String.fromUTF8?
  constructor
  · intro h
    split at h
    · simp only [Option.some.injEq] at h
      rw [← h]
      rfl
    · simp at h
  · rintro rfl
    rw [dif_pos m.isValidUTF8]
    rfl

/-- `parse_change_line` accepts a sign and a non-empty member. -/
theorem parseChangeLine_ok_iff (line : List UInt8) :
    (∃ change, parseChangeLine line = .ok change) ↔ ∃ (sign : UInt8) (member : String),
      (sign = '+'.toUInt8 ∨ sign = '-'.toUInt8) ∧ member ≠ "" ∧
        line = sign :: member.toByteArray.data.toList := by
  have hempty : ∀ m : String, m.toByteArray.data.toList = [] ↔ m = "" := by
    intro m
    rw [← String.toByteArray_inj, ByteArray.ext_iff]
    simp
  cases line with
  | nil => simp [parseChangeLine]
  | cons b bytes =>
    rw [parseChangeLine]
    by_cases hsign : b = '+'.toUInt8 ∨ b = '-'.toUInt8
    · rw [if_pos hsign]
      cases hm : String.fromUTF8? ⟨bytes.toArray⟩ with
      | none =>
        have hnone : ∀ m : String, bytes ≠ m.toByteArray.data.toList := by
          intro m h
          rw [← fromUTF8_eq_some_iff, hm] at h
          simp at h
        simp only [List.cons.injEq]
        constructor
        · rintro ⟨change, h⟩
          split at h <;> simp at h
        · rintro ⟨_, m, _, _, _, h⟩
          exact absurd h (hnone m)
      | some m =>
        rw [fromUTF8_eq_some_iff] at hm
        subst hm
        by_cases he : m = ""
        · simp [he, hempty]
        · have hne : m.toByteArray.data.toList.isEmpty = false := by
            rw [Bool.eq_false_iff, ne_eq, List.isEmpty_iff, hempty]
            exact he
          simp only [hne, Bool.false_eq_true, if_false]
          exact ⟨fun _ => ⟨b, m, hsign, he, rfl⟩, fun _ => ⟨_, rfl⟩⟩
    · rw [if_neg hsign]
      constructor
      · rintro ⟨change, h⟩
        simp at h
      · rintro ⟨sign, m, hs, _, h⟩
        simp only [List.cons.injEq] at h
        exact absurd (h.1 ▸ hs) hsign

/-- A line decodes exactly when it is well formed. -/
theorem decodeChange_ok_iff (line : List UInt8) :
    (∃ change, decodeChange line = .ok change) ↔ WellFormedLine line := by
  unfold decodeChange WellFormedLine
  by_cases hblank : stripCr line = []
  · simp [hblank]
  · have hne : (stripCr line).isEmpty = false := by simpa using hblank
    rw [← parseChangeLine_ok_iff, hne]
    simp only [Bool.false_eq_true, if_false, hblank, false_or]
    cases parseChangeLine (stripCr line) with
    | error e => simp [Except.map]
    | ok change => simp [Except.map]

/-! ## The complete lines of a byte string -/

theorem newline_not_mem_rest (bytes : List UInt8) : newline ∉ (completeLines bytes).2 := by
  induction bytes with
  | nil => simp [completeLines]
  | cons b bytes ih =>
    by_cases hb : b = newline
    · simpa [completeLines, hb] using ih
    · cases hx : (completeLines bytes).1 with
      | nil =>
        have hne : newline ≠ b := fun h => hb h.symm
        simp [completeLines, hb, hx, hne, ih]
      | cons line lines => simpa [completeLines, hb, hx] using ih

theorem completeLines_of_not_mem {bytes : List UInt8} (h : newline ∉ bytes) :
    completeLines bytes = ([], bytes) := by
  induction bytes with
  | nil => rfl
  | cons b bytes ih =>
    have hb : b ≠ newline := fun he => h (by simp [he])
    rw [completeLines, if_neg hb, ih fun hm => h (by simp [hm])]

theorem completeLines_of_ends {before : List UInt8}
    (h : before = [] ∨ before.getLast? = some newline) : (completeLines before).2 = [] := by
  rcases h with rfl | h
  · rfl
  · obtain ⟨init, rfl⟩ := List.getLast?_eq_some_iff.mp h
    rw [completeLines_append, completeLines_line _ [] (newline_not_mem_rest init)]
    rfl

theorem unlines_ends (lines : List (List UInt8)) :
    unlines lines = [] ∨ (unlines lines).getLast? = some newline := by
  induction lines with
  | nil => exact .inl rfl
  | cons line lines ih =>
    have hcons : unlines (line :: lines) = (line ++ [newline]) ++ unlines lines := by
      simp [unlines]
    right
    rcases ih with h | h
    · rw [hcons, h]
      simp
    · rw [hcons, List.getLast?_append, h]
      rfl

/-- What the loop of `push` finds are the complete lines. -/
theorem mem_completeLines_iff (bytes line : List UInt8) :
    line ∈ (completeLines bytes).1 ↔ CompleteLine bytes line := by
  constructor
  · intro h
    obtain ⟨as, bs, hlines⟩ := List.append_of_mem h
    refine ⟨unlines as, unlines bs ++ (completeLines bytes).2, ?_,
      newline_not_mem_completeLines bytes line h, unlines_ends as⟩
    conv_lhs => rw [← unlines_completeLines bytes, hlines, unlines_append]
    simp [unlines]
  · rintro ⟨before, after, rfl, hline, hbefore⟩
    rw [List.append_assoc, completeLines_append, completeLines_of_ends hbefore, List.nil_append,
      completeLines_line line after hline]
    simp

/-- Bytes follow the last newline. -/
theorem completeLines_rest_ne_nil_iff (bytes : List UInt8) :
    (completeLines bytes).2 ≠ [] ↔ ∃ b, bytes.getLast? = some b ∧ b ≠ newline := by
  constructor
  · intro hrest
    obtain ⟨b, hb⟩ := Option.ne_none_iff_exists'.mp (List.getLast?_eq_none_iff.not.mpr hrest)
    refine ⟨b, ?_, fun he => newline_not_mem_rest bytes (he ▸ List.mem_of_getLast? hb)⟩
    rw [← unlines_completeLines bytes, List.getLast?_append, hb]
    rfl
  · rintro ⟨b, hb, hne⟩ hrest
    have hbytes := unlines_completeLines bytes
    rw [hrest, List.append_nil] at hbytes
    rcases unlines_ends (completeLines bytes).1 with h | h
    · rw [← hbytes, h] at hb
      simp at hb
    · rw [hbytes, hb] at h
      exact hne (Option.some.inj h)

/-! ## Chunks -/

namespace CompleteLineDecoder

/-- The chunks of a download, pushed one after another up to the first
error. -/
def pushAll (d : CompleteLineDecoder) :
    List (List UInt8) → Except WorkerError (List DecodedLine × CompleteLineDecoder)
  | [] => .ok ([], d)
  | chunk :: chunks =>
    match d.push chunk with
    | .error e => .error e
    | .ok (decoded, d') =>
      match pushAll d' chunks with
      | .error e => .error e
      | .ok (rest, d'') => .ok (decoded ++ rest, d'')

end CompleteLineDecoder

theorem decodeLines_append (a b : List (List UInt8)) (offset : Nat) :
    decodeLines offset (a ++ b) =
      match decodeLines offset a with
      | .error e => .error e
      | .ok decoded =>
        match decodeLines (offset + consumed a) b with
        | .error e => .error e
        | .ok rest => .ok (decoded ++ rest) := by
  induction a generalizing offset with
  | nil =>
    simp only [List.nil_append, decodeLines, consumed, List.map_nil, List.sum_nil, Nat.add_zero]
    cases decodeLines offset b <;> rfl
  | cons line a ih =>
    have hoffset : offset + consumed (line :: a) = offset + line.length + 1 + consumed a := by
      simp only [consumed, List.map_cons, List.sum_cons]
      omega
    rw [List.cons_append, decodeLines, decodeLines, ih, hoffset]
    cases decodeChange line with
    | error e => rfl
    | ok change =>
      cases decodeLines (offset + line.length + 1) a with
      | error e => rfl
      | ok decoded =>
        cases decodeLines (offset + line.length + 1 + consumed a) b with
        | error e => rfl
        | ok rest => rfl

/-- One push of two chunks is two pushes: the first error of the whole is
the first error of the parts. -/
theorem push_append (d : CompleteLineDecoder) (x y : List UInt8) :
    d.push (x ++ y) =
      match d.push x with
      | .error e => .error e
      | .ok (decoded, d') =>
        match d'.push y with
        | .error e => .error e
        | .ok (rest, d'') => .ok (decoded ++ rest, d'') := by
  unfold push
  rw [← List.append_assoc, completeLines_append (d.pending ++ x) y]
  simp only [decodeLines_append]
  cases decodeLines d.nextOffset (completeLines (d.pending ++ x)).1 with
  | error e => rfl
  | ok decoded =>
    simp only []
    cases decodeLines (d.nextOffset + consumed (completeLines (d.pending ++ x)).1)
        (completeLines ((completeLines (d.pending ++ x)).2 ++ y)).1 with
    | error e => rfl
    | ok rest => simp only [consumed_append, Nat.add_assoc]

theorem push_pending {d d' : CompleteLineDecoder} {chunk : List UInt8} {decoded : List DecodedLine}
    (h : d.push chunk = .ok (decoded, d')) : newline ∉ d'.pending := by
  rw [(push_ok h).2]
  exact newline_not_mem_rest _

/-- However a byte string is cut, the decoder answers as if it had come in
one piece. -/
theorem pushAll_eq_push (chunks : List (List UInt8)) (d : CompleteLineDecoder)
    (hd : newline ∉ d.pending) : d.pushAll chunks = d.push chunks.flatten := by
  induction chunks generalizing d with
  | nil =>
    unfold pushAll push
    rw [List.flatten_nil, List.append_nil, completeLines_of_not_mem hd]
    rfl
  | cons chunk chunks ih =>
    rw [List.flatten_cons, push_append, pushAll]
    cases hpush : d.push chunk with
    | error e => rfl
    | ok r =>
      simp only []
      rw [ih r.2 (push_pending hpush)]

/-! ## Offsets -/

/-- The offsets just after the newlines of lines of which the first starts
at `offset`. -/
def endOffsets (offset : Nat) : List (List UInt8) → List Nat
  | [] => []
  | line :: lines => (offset + line.length + 1) :: endOffsets (offset + line.length + 1) lines

theorem decodeLines_endOffsets {lines : List (List UInt8)} {offset : Nat}
    {decoded : List DecodedLine} (h : decodeLines offset lines = .ok decoded) :
    decoded.map (·.endOffset) = endOffsets offset lines := by
  induction lines generalizing offset decoded with
  | nil =>
    cases h
    rfl
  | cons line lines ih =>
    obtain ⟨rest, hrest, rfl⟩ := decodeLines_cons h
    rw [List.map_cons, ih hrest, endOffsets]

theorem decodeLines_length {lines : List (List UInt8)} {offset : Nat}
    {decoded : List DecodedLine} (h : decodeLines offset lines = .ok decoded) :
    decoded.length = lines.length := by
  induction lines generalizing offset decoded with
  | nil =>
    cases h
    rfl
  | cons line lines ih =>
    obtain ⟨rest, hrest, rfl⟩ := decodeLines_cons h
    rw [List.length_cons, ih hrest, List.length_cons]

theorem decodeLines_ok_iff (lines : List (List UInt8)) (offset : Nat) :
    (∃ decoded, decodeLines offset lines = .ok decoded) ↔ ∀ line ∈ lines, WellFormedLine line := by
  induction lines generalizing offset with
  | nil => simp [decodeLines]
  | cons line lines ih =>
    rw [List.forall_mem_cons, ← decodeChange_ok_iff, ← ih (offset + line.length + 1), decodeLines]
    cases decodeChange line with
    | error e => simp
    | ok change =>
      cases decodeLines (offset + line.length + 1) lines with
      | error e => simp
      | ok rest => simp

theorem endOffsets_getElem? (lines : List (List UInt8)) (offset i : Nat) (h : i < lines.length) :
    (endOffsets offset lines)[i]? = some (offset + consumed (lines.take (i + 1))) := by
  induction lines generalizing offset i with
  | nil => simp at h
  | cons line lines ih =>
    have hoffset : offset + consumed ((line :: lines).take (i + 1)) =
        offset + line.length + 1 + consumed (lines.take i) := by
      simp only [consumed, List.take_succ_cons, List.map_cons, List.sum_cons]
      omega
    rw [hoffset]
    cases i with
    | zero => simp [endOffsets, consumed]
    | succ i =>
      rw [endOffsets, List.getElem?_cons_succ]
      exact ih _ i (by simpa using h)

theorem newlinePositions_cons (b : UInt8) (bytes : List UInt8) :
    newlinePositions (b :: bytes) =
      (if b = newline then [0] else []) ++ (newlinePositions bytes).map (· + 1) := by
  unfold newlinePositions
  rw [List.length_cons, List.range_succ_eq_map, List.filter_cons, List.filter_map]
  have htail : (fun i => decide ((b :: bytes)[i]? = some newline)) ∘ Nat.succ =
      fun i => decide (bytes[i]? = some newline) := by
    funext i
    simp
  rw [htail]
  by_cases hb : b = newline
  · simp [hb]
  · simp [hb]

/-- The lines of a byte string end just after its newlines. -/
theorem endOffsets_completeLines (bytes : List UInt8) (offset : Nat) :
    endOffsets offset (completeLines bytes).1 =
      (newlinePositions bytes).map (offset + · + 1) := by
  induction bytes generalizing offset with
  | nil => rfl
  | cons b bytes ih =>
    have hih := ih (offset + 1)
    have hshift : ((newlinePositions bytes).map (· + 1)).map (offset + · + 1) =
        (newlinePositions bytes).map (offset + 1 + · + 1) := by
      rw [List.map_map]
      apply List.map_congr_left
      intro i _
      simp only [Function.comp_apply]
      omega
    rw [newlinePositions_cons, List.map_append, hshift, ← hih]
    by_cases hb : b = newline
    · simp [completeLines, hb, endOffsets]
    · cases hx : (completeLines bytes).1 with
      | nil => simp [completeLines, hb, hx, endOffsets]
      | cons line lines =>
        have hlen : offset + (line.length + 1) + 1 = offset + 1 + line.length + 1 := by omega
        simp [completeLines, hb, hx, endOffsets, hlen]

theorem newlinePositions_lt {bytes : List UInt8} {i : Nat} (h : i ∈ newlinePositions bytes) :
    i < bytes.length := by
  unfold newlinePositions at h
  exact List.mem_range.mp (List.mem_of_mem_filter h)

/-! ## Starting again at a reported offset -/

theorem new_push_ok {start : Nat} {bytes : List UInt8} {decoded : List DecodedLine}
    {d : CompleteLineDecoder} (h : (new start).push bytes = .ok (decoded, d)) :
    decodeLines start (completeLines bytes).1 = .ok decoded ∧ d.pending = (completeLines bytes).2 := by
  obtain ⟨hdecoded, rfl⟩ := push_ok h
  exact ⟨hdecoded, rfl⟩

theorem push_unlines {start : Nat} {lines : List (List UInt8)} {decoded : List DecodedLine}
    {d : CompleteLineDecoder} (hlines : ∀ line ∈ lines, newline ∉ line)
    (h : (new start).push (unlines lines) = .ok (decoded, d)) :
    decoded.length = lines.length ∧ d = new (start + consumed lines) := by
  obtain ⟨hdecoded, rfl⟩ := push_ok h
  simp only [new, List.nil_append, completeLines_unlines lines hlines, and_true] at hdecoded ⊢
  exact decodeLines_length hdecoded

/-- A decoder started at a reported end offset on the bytes that remain
reports the lines that remain, and ends as the first decoder did. -/
theorem push_restart {start : Nat} {bytes : List UInt8} {decoded : List DecodedLine}
    {d : CompleteLineDecoder} (h : (new start).push bytes = .ok (decoded, d)) {i : Nat}
    {line : DecodedLine} (hi : decoded[i]? = some line) :
    (new line.endOffset).push (bytes.drop (line.endOffset - start)) =
      .ok (decoded.drop (i + 1), d) := by
  obtain ⟨hdecoded, _⟩ := new_push_ok h
  have hlength := decodeLines_length hdecoded
  generalize hls : (completeLines bytes).1 = lines at hdecoded hlength
  have hlt : i < lines.length := hlength ▸ (List.getElem?_eq_some_iff.mp hi).1
  -- The offset is the start and the bytes of the first `i + 1` lines.
  have hoffset : line.endOffset = start + consumed (lines.take (i + 1)) := by
    have hget := congrArg (·[i]?) (decodeLines_endOffsets hdecoded)
    simp only [List.getElem?_map, hi, Option.map_some, endOffsets_getElem? lines start i hlt,
      Option.some.injEq] at hget
    exact hget
  have hsplit : bytes = unlines (lines.take (i + 1)) ++
      bytes.drop (consumed (lines.take (i + 1))) := by
    rw [← length_unlines]
    conv_lhs => rw [← List.take_append_drop (unlines (lines.take (i + 1))).length bytes]
    congr 1
    have hbytes := unlines_completeLines bytes
    rw [hls, ← List.take_append_drop (i + 1) lines, unlines_append, List.append_assoc] at hbytes
    conv_lhs => rw [← hbytes]
    exact List.take_left
  rw [hoffset, Nat.add_sub_cancel_left]
  have hnl : ∀ l ∈ lines.take (i + 1), newline ∉ l := fun l hl =>
    newline_not_mem_completeLines bytes l (hls ▸ List.mem_of_mem_take hl)
  rw [hsplit, push_append] at h
  cases hfirst : (new start).push (unlines (lines.take (i + 1))) with
  | error e => simp [hfirst] at h
  | ok r =>
    obtain ⟨first, d₁⟩ := r
    obtain ⟨hcount, rfl⟩ := push_unlines hnl hfirst
    rw [hfirst] at h
    cases hrest : (new (start + consumed (lines.take (i + 1)))).push
        (bytes.drop (consumed (lines.take (i + 1)))) with
    | error e => simp [hrest] at h
    | ok r =>
      obtain ⟨rest, d₂⟩ := r
      simp only [hrest, Except.ok.injEq, Prod.mk.injEq] at h
      obtain ⟨rfl, rfl⟩ := h
      have hi' : first.length = i + 1 := by
        rw [hcount, List.length_take]
        omega
      rw [← hi', List.drop_left]

/-- The decoder on every byte string and every way of cutting it. With
well-formed complete lines the chunks give what one push of the whole
gives: the offsets are those just after the newlines, inside the bytes
read, a partial line is left exactly when bytes follow the last newline,
and a decoder started again at a reported offset gives what remains. With
a malformed complete line some push fails. -/
theorem decoder_chunk_invariant (start : Nat) (bytes : List UInt8) (chunks : List (List UInt8))
    (hchunks : chunks.flatten = bytes) :
    ((∀ line, CompleteLine bytes line → WellFormedLine line) →
      ∃ decoded d,
        (new start).push bytes = .ok (decoded, d) ∧
        (new start).pushAll chunks = .ok (decoded, d) ∧
        decoded.map (·.endOffset) = (newlinePositions bytes).map (start + · + 1) ∧
        (∀ line ∈ decoded, start < line.endOffset ∧ line.endOffset ≤ start + bytes.length) ∧
        (d.hasPartialLine = true ↔ ∃ b, bytes.getLast? = some b ∧ b ≠ newline) ∧
        ∀ (i : Nat) (line : DecodedLine), decoded[i]? = some line →
          ∀ remaining, remaining.flatten = bytes.drop (line.endOffset - start) →
            (new line.endOffset).pushAll remaining = .ok (decoded.drop (i + 1), d)) ∧
    ((∃ line, CompleteLine bytes line ∧ ¬ WellFormedLine line) →
      ∃ e, (new start).pushAll chunks = .error e) := by
  have hall : (new start).pushAll chunks = (new start).push bytes := by
    rw [pushAll_eq_push _ _ (by simp [new]), hchunks]
  constructor
  · intro hwell
    obtain ⟨decoded, hdecoded⟩ := (decodeLines_ok_iff (completeLines bytes).1 start).mpr
      fun line hline => hwell line ((mem_completeLines_iff bytes line).mp hline)
    have hpush : (new start).push bytes = .ok (decoded, ⟨(completeLines bytes).2,
        start + consumed (completeLines bytes).1⟩) := by
      simp [push, new, hdecoded]
    have hends : decoded.map (·.endOffset) = (newlinePositions bytes).map (start + · + 1) := by
      rw [decodeLines_endOffsets hdecoded, endOffsets_completeLines]
    refine ⟨decoded, _, hpush, hall.trans hpush, hends, ?_, ?_, ?_⟩
    · intro line hline
      have hmem : line.endOffset ∈ decoded.map (·.endOffset) := List.mem_map_of_mem hline
      rw [hends, List.mem_map] at hmem
      obtain ⟨position, hposition, hoffset⟩ := hmem
      have := newlinePositions_lt hposition
      omega
    · rw [← completeLines_rest_ne_nil_iff]
      simp [hasPartialLine]
    · intro i line hline remaining hremaining
      rw [pushAll_eq_push _ _ (by simp [new]), hremaining]
      exact push_restart hpush hline
  · rintro ⟨line, hline, hbad⟩
    rw [hall]
    cases hpush : (new start).push bytes with
    | error e => exact ⟨e, rfl⟩
    | ok r =>
      have hwell := (decodeLines_ok_iff _ _).mp ⟨_, (new_push_ok hpush).1⟩
      exact absurd (hwell line ((mem_completeLines_iff bytes line).mpr hline)) hbad

/-- `+é\r\n\n-b` from offset 100, cut inside the `é` and before the newline, with an empty
chunk: two complete lines, and `-b` waits for its newline. The line `x` is malformed. -/
theorem decoder_chunk_invariant_crlf :
    (∃ decoded d,
      (new 100).pushAll [[43, 0xc3], [], [0xa9, 13], [10, 10, 45], [98]] = .ok (decoded, d) ∧
      decoded.map (·.endOffset) = [105, 106] ∧ d.hasPartialLine = true) ∧
    ∃ e, (new 0).pushAll [[120], [10]] = .error e := by
  have hbad : ¬ WellFormedLine [120] := by
    rw [← decodeChange_ok_iff]
    rintro ⟨change, h⟩
    cases h
  have herror := (decoder_chunk_invariant 0 [120, 10] [[120], [10]] rfl).2
    ⟨[120], ⟨[], [], rfl, by decide, .inl rfl⟩, hbad⟩
  obtain ⟨decoded, d, _, hall, hends, _, hpartial, _⟩ :=
    (decoder_chunk_invariant 100 [43, 0xc3, 0xa9, 13, 10, 10, 45, 98]
      [[43, 0xc3], [], [0xa9, 13], [10, 10, 45], [98]] rfl).1 (by
        intro line hline
        rw [← mem_completeLines_iff] at hline
        have hlines : (completeLines [43, 0xc3, 0xa9, 13, 10, 10, 45, 98]).1 =
          [[43, 0xc3, 0xa9, 13], []] := by decide
        rw [hlines] at hline
        simp only [List.mem_cons, List.not_mem_nil, or_false] at hline
        rcases hline with rfl | rfl
        · exact .inr ⟨43, "é", .inl (by decide), by decide, by decide⟩
        · exact .inl (by decide))
  have hrest : d.hasPartialLine = true := hpartial.mpr ⟨98, by decide, by decide⟩
  exact ⟨⟨decoded, d, hall, hends.trans (by decide), hrest⟩, herror⟩

end ForwardProxy.IdList
