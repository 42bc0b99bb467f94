/-
ForwardProxy.IdList.DownloadTheorems — the chunked download against every
server.

`Accepted` is what the checks of `download_chunk` leave of an answer:
a 206 whose bytes are the requested ones up to the end of the file as the
server sees it, or a 200 at the start of the file. `StreamOk` is the
invariant of the stream. Its last field is the one that matters: once a
size is fixed, an offset of zero means an empty file, so a 200 can only
be the first answer.

With a size `T` fixed every turn ends the stream, fails, or moves the
offset towards `T` and not past it, which gives termination
(`stream_ends`) and the length of the body (`finished_length`). Against a
server that serves ranges of an append-only file the turn is an equation
(`chunkedStep_served`).
-/
import Mathlib.Data.List.Basic
import ForwardProxy.IdList.Download
import ForwardProxy.IdList.DictionaryTheorems
import ForwardProxy.IdList.Redis

namespace ForwardProxy.IdList

open Text

/-! ## Numbers and texts -/

theorem addU64_eq {a b : Nat} (h : a + b ≤ u64Max) : addU64 a b = .ok (a + b) := if_pos h

theorem subU64_eq {a b : Nat} (h : b ≤ a) : subU64 a b = .ok (a - b) := if_pos h

theorem of_addU64 {a b n : Nat} (h : addU64 a b = .ok n) : n = a + b ∧ a + b ≤ u64Max := by
  unfold addU64 at h
  split at h
  · rename_i hle
    simp only [Except.ok.injEq] at h
    exact ⟨h.symm, hle⟩
  · simp at h

theorem of_subU64 {a b n : Nat} (h : subU64 a b = .ok n) : n = a - b ∧ b ≤ a := by
  unfold subU64 at h
  split at h
  · rename_i hle
    simp only [Except.ok.injEq] at h
    exact ⟨h.symm, hle⟩
  · simp at h

theorem parseU64_le {s : String} {n : Nat} (h : parseU64 s = some n) : n ≤ u64Max := by
  unfold parseU64 at h
  simp only at h
  split at h
  · simp at h
  · split at h
    · rename_i hlt
      simp only [Option.some.injEq] at h
      rw [← h]
      unfold u64Max
      omega
    · simp at h

theorem parseContentRange_le {value : String} {last total : Nat}
    (h : parseContentRange value = some (last, total)) : total ≤ u64Max := by
  unfold parseContentRange at h
  simp only [Option.bind_eq_some_iff, Option.map_eq_some_iff, Prod.mk.injEq] at h
  obtain ⟨_, _, _, _, _, _, _, htotal, _, rfl⟩ := h
  exact parseU64_le htotal

/-- The Content-Range of a range of a file of `total` bytes. -/
def contentRangeText (first last total : Nat) : String :=
  "bytes " ++ toString first ++ "-" ++ toString last ++ "/" ++ toString total

theorem not_mem_digits {c : Char} (hc : c.isDigit = false) (n : Nat) :
    c ∉ (toString n).toList := by
  intro h
  rw [isDigit_of_mem_toString h] at hc
  cases hc

theorem contentRangeText_dropPrefix (first last total : Nat) :
    (contentRangeText first last total).toList.dropPrefix? "bytes ".toList =
      some ((toString first).toList ++ '-' :: ((toString last).toList ++
        '/' :: (toString total).toList)) := by
  have hlist : (contentRangeText first last total).toList = "bytes ".toList ++
      ((toString first).toList ++ '-' :: ((toString last).toList ++
        '/' :: (toString total).toList)) := by
    simp [contentRangeText]
  rw [hlist, List.dropPrefix?_append_of_beq _ (by simp)]

theorem contentRangeStartsAt_text {first last total : Nat} (h : first ≤ u64Max) :
    contentRangeStartsAt (contentRangeText first last total) first = true := by
  unfold contentRangeStartsAt
  rw [contentRangeText_dropPrefix, Option.bind_some,
    splitOnce_singleton (not_mem_digits (by decide) first), Option.bind_some, String.ofList_toList,
    parseU64_toString (by unfold u64Max at h; omega)]
  simp

theorem parseContentRange_text {first last total : Nat} (hlast : last ≤ u64Max)
    (htotal : total ≤ u64Max) :
    parseContentRange (contentRangeText first last total) = some (last, total) := by
  have hslash : '/' ∉ (toString first).toList ++ '-' :: (toString last).toList := by
    simp only [List.mem_append, List.mem_cons, not_or]
    exact ⟨not_mem_digits (by decide) first, by decide, not_mem_digits (by decide) last⟩
  have hsplit := splitOnce_singleton hslash (toString total).toList
  rw [List.append_assoc, List.cons_append] at hsplit
  unfold parseContentRange
  rw [contentRangeText_dropPrefix, Option.bind_some, hsplit, Option.bind_some,
    splitOnce_singleton (not_mem_digits (by decide) first), Option.bind_some,
    String.ofList_toList, String.ofList_toList,
    parseU64_toString (by unfold u64Max at hlast; omega),
    parseU64_toString (by unfold u64Max at htotal; omega)]
  rfl

/-! ## One answer -/

/-- What the checks leave of an answer to the range from `start` to
`stop`. -/
inductive Accepted (r : Response) (start stop : Nat) (total : Nat) : Prop where
  | ranged (status : r.status = 206) (start_lt : start < total) (total_le : total ≤ u64Max)
      (start_le : start ≤ stop) (length : start + r.body.length = min stop (total - 1) + 1)
  | whole (status : r.status = 200) (start_eq : start = 0) (total_eq : total = r.body.length)
      (length : r.body.length ≤ stop + 1)

/-- The range that a status and a Content-Range promise. -/
theorem of_expectedRange {r : Response} {start stop : Nat} {len total : Option Nat}
    (h : expectedRange r start stop = .ok (len, total)) :
    (r.status = 206 ∧ ∃ last size, start ≤ last ∧ last < size ∧ size ≤ u64Max ∧
      last = min stop (size - 1) ∧ len = some (last - start + 1) ∧ total = some size) ∨
    (r.status = 200 ∧ start = 0 ∧ len = none ∧ total = none) := by
  unfold expectedRange at h
  split at h
  · rename_i hstatus
    left
    refine ⟨hstatus, ?_⟩
    cases hparse : parseContentRange (r.contentRange.getD "") with
    | none => simp [hparse] at h
    | some parsed =>
      obtain ⟨last, size⟩ := parsed
      simp only [hparse] at h
      unfold rangeAccepted at h
      by_cases hrange : contentRangeStartsAt (r.contentRange.getD "") start ∧ last < size ∧
          start ≤ last
      · have hsize := parseContentRange_le hparse
        have hlast := hrange.2.1
        have hstart := hrange.2.2
        rw [if_pos hrange, subU64_eq (show 1 ≤ size by omega), subU64_eq hstart] at h
        simp only at h
        by_cases hmin : last = min stop (size - 1)
        · rw [decide_eq_true hmin, addU64_eq (show last - start + 1 ≤ u64Max by omega)] at h
          simp only [Except.ok.injEq, Prod.mk.injEq] at h
          exact ⟨last, size, hstart, hlast, hsize, hmin, h.1.symm, h.2.symm⟩
        · rw [decide_eq_false hmin] at h
          simp at h
      · rw [if_neg hrange] at h
        simp at h
  · split at h
    · rename_i hwhole
      simp only [Except.ok.injEq, Prod.mk.injEq] at h
      exact .inr ⟨hwhole.1, hwhole.2, h.1.symm, h.2.symm⟩
    · simp at h

theorem of_readBody {limit : Nat} {fault : Option String} {pieces : List Bytes}
    {body out : List UInt8} (hbody : body.length ≤ limit)
    (h : readBody limit fault body pieces = .ok out) :
    out = body ++ pieces.flatMap (·.data) ∧ out.length ≤ limit := by
  induction pieces generalizing body with
  | nil =>
    unfold readBody at h
    cases fault with
    | none =>
      simp only [Except.ok.injEq] at h
      simp [← h, hbody]
    | some message => simp at h
  | cons piece pieces ih =>
    rw [readBody] at h
    cases hadd : addU64 body.length piece.data.length with
    | error e => simp [hadd] at h
    | ok len =>
      obtain ⟨rfl, _⟩ := of_addU64 hadd
      rw [hadd] at h
      simp only at h
      split at h
      · simp at h
      · obtain ⟨hout, hlen⟩ := ih (by rw [List.length_append]; omega) h
        exact ⟨by rw [hout, List.flatMap_cons, List.append_assoc], hlen⟩

/-- The length of a body fits, piece by piece. -/
theorem readBody_ne_overflow {limit : Nat} (hlimit : limit + 2 ^ 63 ≤ u64Max)
    (fault : Option String) (pieces : List Bytes) (body : List UInt8)
    (hbody : body.length ≤ limit) : readBody limit fault body pieces ≠ .error .overflow := by
  induction pieces generalizing body with
  | nil =>
    unfold readBody
    cases fault with
    | none => simp
    | some message => simp
  | cons piece pieces ih =>
    have hfits := piece.fits
    rw [readBody, addU64_eq (show body.length + piece.data.length ≤ u64Max by omega)]
    simp only
    split
    · simp
    · exact ih _ (by rw [List.length_append]; omega)

theorem readBody_eq {limit : Nat} (hlimit : limit + 2 ^ 63 ≤ u64Max) (pieces : List Bytes)
    (body : List UInt8) (hbody : (body ++ pieces.flatMap (·.data)).length ≤ limit) :
    readBody limit none body pieces = .ok (body ++ pieces.flatMap (·.data)) := by
  induction pieces generalizing body with
  | nil => simp [readBody]
  | cons piece pieces ih =>
    have hfits := piece.fits
    rw [List.flatMap_cons, ← List.append_assoc] at hbody ⊢
    have hlen : body.length + piece.data.length ≤ limit := by
      simp only [List.length_append] at hbody
      omega
    rw [readBody, addU64_eq (by omega)]
    simp only
    rw [if_neg (by omega)]
    exact ih _ hbody

theorem of_acceptChunk {r : Response} {start stop total : Nat} {body : List UInt8}
    (h : acceptChunk r start stop = .ok (body, total)) :
    body = r.body ∧ Accepted r start stop total := by
  unfold acceptChunk at h
  split at h
  · simp at h
  cases hrange : expectedRange r start stop with
  | error e => simp [hrange] at h
  | ok promised =>
    obtain ⟨len, size⟩ := promised
    simp only [hrange] at h
    cases hencoding : checkEncoding r with
    | error e => simp [hencoding] at h
    | ok _ =>
      simp only [hencoding] at h
      cases hgap : subU64 stop start with
      | error e => simp [hgap] at h
      | ok gap =>
        obtain ⟨rfl, hstop⟩ := of_subU64 hgap
        simp only [hgap] at h
        cases hlimit : addU64 (stop - start) 1 with
        | error e => simp [hlimit] at h
        | ok limit =>
          obtain ⟨rfl, _⟩ := of_addU64 hlimit
          simp only [hlimit] at h
          split at h
          · simp at h
          cases hread : readBody (stop - start + 1) r.fault [] r.pieces with
          | error e => simp [hread] at h
          | ok read =>
            obtain ⟨hbody, hlen⟩ := of_readBody (by simp) hread
            rw [List.nil_append] at hbody
            change read = r.body at hbody
            subst hbody
            simp only [hread] at h
            split at h
            · simp at h
            · rename_i hexpected
              simp only [Except.ok.injEq, Prod.mk.injEq] at h
              obtain ⟨rfl, rfl⟩ := h
              refine ⟨rfl, ?_⟩
              rcases of_expectedRange hrange with
                ⟨hstatus, last, size, hstart, hlast, hsize, hmin, rfl, rfl⟩ | ⟨hstatus, hzero, rfl, rfl⟩
              · simp only [Option.any_some, decide_not, Bool.not_eq_true', decide_eq_false_iff_not,
                  not_not] at hexpected
                rw [Option.getD_some]
                exact .ranged hstatus (by omega) hsize hstop (by omega)
              · rw [Option.getD_none]
                exact .whole hstatus hzero rfl (by omega)

theorem expectedRange_ne_overflow (r : Response) (start stop : Nat) :
    expectedRange r start stop ≠ .error .overflow := by
  intro h
  unfold expectedRange at h
  split at h
  · cases hparse : parseContentRange (r.contentRange.getD "") with
    | none => simp [hparse] at h
    | some parsed =>
      obtain ⟨last, size⟩ := parsed
      simp only [hparse] at h
      unfold rangeAccepted at h
      by_cases hrange : contentRangeStartsAt (r.contentRange.getD "") start ∧ last < size ∧
          start ≤ last
      · have hsize := parseContentRange_le hparse
        have hlast := hrange.2.1
        have hstart := hrange.2.2
        rw [if_pos hrange, subU64_eq (show 1 ≤ size by omega), subU64_eq hstart] at h
        simp only [addU64_eq (show last - start + 1 ≤ u64Max by omega)] at h
        split at h <;> simp_all
      · rw [if_neg hrange] at h
        simp at h
  · split at h <;> simp at h

theorem checkEncoding_ne_overflow (r : Response) : checkEncoding r ≠ .error .overflow := by
  unfold checkEncoding
  split
  · simp
  · split <;> simp

theorem acceptChunk_ne_overflow (r : Response) {start stop : Nat} (hstop : start ≤ stop)
    (hlimit : stop - start + 1 + 2 ^ 63 ≤ u64Max) :
    acceptChunk r start stop ≠ .error .overflow := by
  intro h
  unfold acceptChunk at h
  split at h
  · simp at h
  cases hrange : expectedRange r start stop with
  | error e =>
    simp only [hrange, Except.error.injEq] at h
    subst h
    exact expectedRange_ne_overflow r start stop hrange
  | ok promised =>
    simp only [hrange] at h
    cases hencoding : checkEncoding r with
    | error e =>
      simp only [hencoding, Except.error.injEq] at h
      subst h
      exact checkEncoding_ne_overflow r hencoding
    | ok _ =>
      simp only [hencoding, subU64_eq hstop,
        addU64_eq (show stop - start + 1 ≤ u64Max by omega)] at h
      split at h
      · simp at h
      cases hread : readBody (stop - start + 1) r.fault [] r.pieces with
      | error e =>
        simp only [hread, Except.error.injEq] at h
        subst h
        exact readBody_ne_overflow hlimit r.fault r.pieces [] (by simp) hread
      | ok body =>
        simp only [hread] at h
        split at h <;> simp at h

/-! ## One turn -/

/-- The offset of a stream lies inside the snapshot; it is zero after an
answer only if that answer was an empty file. -/
structure StreamOk (st : StreamState) : Prop where
  offset_le : st.offset ≤ u64Max
  inside : ∀ total, st.snapshotSize = some total → st.offset ≤ total ∧ total ≤ u64Max
  empty : ∀ total, st.snapshotSize = some total → st.offset = 0 → total = 0

section Turn

variable {serve : Nat → Nat → Reply} {chunkBytes : Nat} {st st' : StreamState}
  {chunk : List UInt8}

theorem streamState_stop (hchunk : 1 ≤ chunkBytes) : st.stop chunkBytes =
    .ok (min (min (st.offset + (chunkBytes - 1)) u64Max) (st.snapshotSize.getD u64Max - 1)) := by
  rw [StreamState.stop, subU64_eq hchunk]
  rfl

/-- The snapshot size, or the largest number before it is known. -/
theorem StreamOk.size_le (h : StreamOk st) : st.snapshotSize.getD u64Max ≤ u64Max := by
  cases hsize : st.snapshotSize with
  | none => simp
  | some total => exact (h.inside total hsize).2

/-- What a turn that yields a chunk did. -/
theorem of_chunkedStep (hchunk : 1 ≤ chunkBytes)
    (h : chunkedStep serve chunkBytes st = .ok (some (chunk, st'))) :
    ∃ stop r total,
      stop = min (min (st.offset + (chunkBytes - 1)) u64Max) (st.snapshotSize.getD u64Max - 1) ∧
      (∀ size, st.snapshotSize = some size → st.offset < size) ∧
      serve st.offset stop = .ok r ∧ chunk = r.body ∧ Accepted r st.offset stop total ∧
      st' = ⟨st.offset + chunk.length, some (st.snapshotSize.getD total)⟩ := by
  unfold chunkedStep at h
  split at h
  · simp at h
  rename_i hopen
  rw [streamState_stop hchunk] at h
  simp only at h
  generalize hstop : min (min (st.offset + (chunkBytes - 1)) u64Max)
    (st.snapshotSize.getD u64Max - 1) = stop at h
  unfold downloadChunk at h
  split at h
  · simp at h
  · rename_i chunk' total hdownload
    split at hdownload
    · simp at hdownload
    · cases hserve : serve st.offset stop with
      | error message => simp [hserve] at hdownload
      | ok r =>
        rw [hserve] at hdownload
        obtain ⟨rfl, haccepted⟩ := of_acceptChunk hdownload
        cases hnext : addU64 st.offset r.body.length with
        | error e => simp [hnext] at h
        | ok next =>
          obtain ⟨rfl, _⟩ := of_addU64 hnext
          simp only [hnext, Except.ok.injEq, Option.some.injEq, Prod.mk.injEq] at h
          obtain ⟨rfl, rfl⟩ := h
          refine ⟨stop, r, total, rfl, ?_, hserve, rfl, haccepted, rfl⟩
          intro size hsize
          simpa [hsize] using hopen

/-- An accepted answer moves the offset, by the bytes it brought, and not
past the snapshot. The only one that brings nothing is an empty 200 at the
start of the file. -/
theorem chunkedStep_advances (hchunk : 1 ≤ chunkBytes) (hok : StreamOk st)
    (h : chunkedStep serve chunkBytes st = .ok (some (chunk, st'))) :
    StreamOk st' ∧ st'.offset = st.offset + chunk.length ∧
      (∀ total, st.snapshotSize = some total → st'.snapshotSize = some total) ∧
      (∃ total, st'.snapshotSize = some total) ∧
      (chunk ≠ [] ∨ (st.offset = 0 ∧ st'.snapshotSize = some 0 ∧
        ∃ stop r, serve 0 stop = .ok r ∧ r.status = 200 ∧ r.body = [])) := by
  obtain ⟨stop, r, total, hstop, hopen, hserve, rfl, haccepted, rfl⟩ := of_chunkedStep hchunk h
  have hsize := hok.size_le
  have hoffset := hok.offset_le
  have hmax : 1 ≤ u64Max := by decide
  cases haccepted with
  | ranged status start_lt total_le start_le length =>
    have hne : r.body ≠ [] := by
      intro hnil
      rw [hnil, List.length_nil] at length
      omega
    refine ⟨⟨?_, ?_, ?_⟩, rfl, ?_, ⟨_, rfl⟩, .inl hne⟩
    · simp only
      omega
    · intro size hsize'
      simp only [Option.some.injEq] at hsize' ⊢
      cases hsnapshot : st.snapshotSize with
      | none =>
        rw [hsnapshot, Option.getD_none] at hsize'
        omega
      | some snapshot =>
        rw [hsnapshot, Option.getD_some] at hsize' hsize hstop
        have := hopen snapshot hsnapshot
        omega
    · intro size hsize' hzero
      simp only at hzero
      exact absurd (List.length_eq_zero_iff.mp (by omega)) hne
    · intro size hsize'
      rw [hsize']
      rfl
  | whole status start_eq total_eq length =>
    -- A known size would be zero by now, and the stream at its end.
    have hsnapshot : st.snapshotSize = none := by
      cases hsnapshot : st.snapshotSize with
      | none => rfl
      | some snapshot =>
        have := hok.empty snapshot hsnapshot start_eq
        have := hopen snapshot hsnapshot
        omega
    rw [hsnapshot, Option.getD_none] at hstop
    refine ⟨⟨?_, ?_, ?_⟩, rfl, ?_, ⟨_, rfl⟩, ?_⟩
    · simp only
      omega
    · intro size hsize'
      simp only [Option.some.injEq, hsnapshot, Option.getD_none] at hsize' ⊢
      omega
    · intro size hsize' hzero
      simp only [Option.some.injEq, hsnapshot, Option.getD_none] at hsize' hzero
      omega
    · intro size hsize'
      rw [hsnapshot] at hsize'
      cases hsize'
    · by_cases hne : r.body = []
      · right
        rw [start_eq] at hserve
        refine ⟨start_eq, ?_, stop, r, hserve, status, hne⟩
        rw [hsnapshot, Option.getD_none, total_eq, hne]
        rfl
      · exact .inl hne

/-- The arithmetic of a turn stays inside `u64`. -/
theorem chunkedStep_ne_overflow (hchunk : 1 ≤ chunkBytes) (hmax : chunkBytes ≤ downloadChunkBytes)
    (hok : StreamOk st) : chunkedStep serve chunkBytes st ≠ .error .overflow := by
  have hsize := hok.size_le
  have hoffset := hok.offset_le
  intro h
  unfold chunkedStep at h
  split at h
  · simp at h
  rw [streamState_stop hchunk] at h
  simp only at h
  generalize hstop : min (min (st.offset + (chunkBytes - 1)) u64Max)
    (st.snapshotSize.getD u64Max - 1) = stop at h
  unfold downloadChunk at h
  by_cases hrange : stop < st.offset
  · simp [hrange] at h
  rw [if_neg hrange] at h
  cases hserve : serve st.offset stop with
  | error message => simp [hserve] at h
  | ok r =>
    have hlimit : stop - st.offset + 1 + 2 ^ 63 ≤ u64Max := by
      unfold downloadChunkBytes at hmax
      unfold u64Max
      omega
    simp only [hserve] at h
    cases haccept : acceptChunk r st.offset stop with
    | error e =>
      simp only [haccept, Except.error.injEq] at h
      subst h
      exact acceptChunk_ne_overflow r (by omega) hlimit haccept
    | ok accepted =>
      obtain ⟨body, total⟩ := accepted
      obtain ⟨rfl, haccepted⟩ := of_acceptChunk haccept
      have hnext : st.offset + r.body.length ≤ u64Max := by
        cases haccepted with
        | ranged status start_lt total_le start_le length => omega
        | whole status start_eq total_eq length =>
          unfold u64Max at *
          omega
      simp [haccept, addU64_eq hnext] at h

end Turn

/-! ## Runs -/

section Runs

variable {serve : Nat → Nat → Nat → Reply} {chunkBytes : Nat} {st st' : StreamState}

/-- The state of the stream after `n` accepted answers. -/
def streamAfter (serve : Nat → Nat → Nat → Reply) (chunkBytes start : Nat) :
    Nat → Option StreamState
  | 0 => some ⟨start, none⟩
  | n + 1 =>
    match streamAfter serve chunkBytes start n with
    | none => none
    | some st =>
      match chunkedStep (serve n) chunkBytes st with
      | .ok (some (_, st')) => some st'
      | _ => none

/-- The total that the first answer reports. -/
def firstTotal (serve : Nat → Nat → Nat → Reply) (chunkBytes start : Nat) : Option Nat :=
  match StreamState.stop ⟨start, none⟩ chunkBytes with
  | .error _ => none
  | .ok stop =>
    match downloadChunk (serve 0) start stop with
    | .error _ => none
    | .ok (_, total) => some total

theorem streamOk_start {start : Nat} (h : start ≤ u64Max) : StreamOk ⟨start, none⟩ :=
  ⟨h, by simp, by simp⟩

theorem streamOk_after (hchunk : 1 ≤ chunkBytes) {start : Nat} (hstart : start ≤ u64Max) (n : Nat)
    (h : streamAfter serve chunkBytes start n = some st) : StreamOk st := by
  induction n generalizing st with
  | zero =>
    simp only [streamAfter, Option.some.injEq] at h
    rw [← h]
    exact streamOk_start hstart
  | succ n ih =>
    rw [streamAfter] at h
    cases hbefore : streamAfter serve chunkBytes start n with
    | none => simp [hbefore] at h
    | some before =>
      simp only [hbefore] at h
      split at h
      · rename_i chunk next hstep
        simp only [Option.some.injEq] at h
        subst h
        exact (chunkedStep_advances hchunk (ih hbefore) hstep).1
      · simp at h

/-- The first turn fixes the size. -/
theorem firstTotal_of_step {start : Nat} {chunk : List UInt8}
    (h : chunkedStep (serve 0) chunkBytes ⟨start, none⟩ = .ok (some (chunk, st'))) :
    st'.snapshotSize = firstTotal serve chunkBytes start := by
  unfold chunkedStep at h
  simp only [Option.any_none, Bool.false_eq_true, if_false] at h
  split at h
  · simp at h
  · rename_i stop hstop
    cases hdownload : downloadChunk (serve 0) start stop with
    | error e => simp [hdownload] at h
    | ok r =>
      simp only [hdownload] at h
      split at h
      · simp at h
      · simp only [Except.ok.injEq, Option.some.injEq, Prod.mk.injEq, Option.getD_none] at h
        have htotal : firstTotal serve chunkBytes start = some r.2 := by
          simp only [firstTotal, hstop, hdownload]
        rw [htotal, ← h.2]

/-- With the size known, a turn that yields a chunk yields a byte. -/
theorem chunkedStep_progress {serve : Nat → Nat → Reply} (hchunk : 1 ≤ chunkBytes)
    (hok : StreamOk st) {total : Nat} (hsize : st.snapshotSize = some total)
    {chunk : List UInt8} (h : chunkedStep serve chunkBytes st = .ok (some (chunk, st'))) :
    StreamOk st' ∧ st'.snapshotSize = some total ∧ st'.offset = st.offset + chunk.length ∧
      st.offset < st'.offset := by
  obtain ⟨hok', hoffset, hkept, _, hbytes⟩ := chunkedStep_advances hchunk hok h
  refine ⟨hok', hkept total hsize, hoffset, ?_⟩
  rcases hbytes with hne | ⟨_, hzero, _⟩
  · have := List.length_pos_iff.mpr hne
    omega
  · obtain ⟨_, _, _, _, hopen, _⟩ := of_chunkedStep hchunk h
    have := hopen total hsize
    rw [hkept total hsize, Option.some.injEq] at hzero
    omega

theorem stream_ends_known (hchunk : 1 ≤ chunkBytes) (fuel n : Nat) (hok : StreamOk st) {total : Nat}
    (hsize : st.snapshotSize = some total) (hfuel : total - st.offset < fuel) :
    (chunkedStream serve chunkBytes fuel n st).2 ≠ .running := by
  induction fuel generalizing n st with
  | zero => omega
  | succ fuel ih =>
    rw [chunkedStream]
    split
    · simp
    · simp
    · rename_i chunk next hstep
      obtain ⟨hok', hsize', hoffset, hlt⟩ := chunkedStep_progress hchunk hok hsize hstep
      have hinside := (hok'.inside total hsize').1
      exact ih (n + 1) hok' hsize' (by omega)

/-- Every stream ends or fails. -/
theorem stream_ends (hchunk : 1 ≤ chunkBytes) {start : Nat} (hstart : start ≤ u64Max) :
    ∃ fuel, (chunkedStream serve chunkBytes fuel 0 ⟨start, none⟩).2 ≠ .running := by
  cases hstep : chunkedStep (serve 0) chunkBytes ⟨start, none⟩ with
  | error e => exact ⟨1, by simp [chunkedStream, hstep]⟩
  | ok yielded =>
    cases yielded with
    | none => exact ⟨1, by simp [chunkedStream, hstep]⟩
    | some next =>
      obtain ⟨hok, _, _, ⟨total, hsize⟩, _⟩ :=
        chunkedStep_advances hchunk (streamOk_start hstart) hstep
      refine ⟨total + 2, ?_⟩
      simp only [chunkedStream, hstep]
      exact stream_ends_known hchunk (total + 1) 1 hok hsize (by omega)

theorem stream_ne_overflow (hchunk : 1 ≤ chunkBytes) (hmax : chunkBytes ≤ downloadChunkBytes)
    (fuel n : Nat) (hok : StreamOk st) :
    (chunkedStream serve chunkBytes fuel n st).2 ≠ .failed .overflow := by
  induction fuel generalizing n st with
  | zero => simp [chunkedStream]
  | succ fuel ih =>
    rw [chunkedStream]
    split
    · rename_i e hstep
      intro he
      simp only [StreamEnd.failed.injEq] at he
      subst he
      exact chunkedStep_ne_overflow hchunk hmax hok hstep
    · simp
    · rename_i chunk next hstep
      exact ih (n + 1) (chunkedStep_advances hchunk hok hstep).1

theorem yielded_finished {r : List (List UInt8) × StreamEnd} {chunk : List UInt8}
    {chunks : List (List UInt8)} (h : (chunk :: r.1, r.2) = (chunks, .finished)) :
    ∃ rest, r = (rest, .finished) ∧ chunks = chunk :: rest := by
  simp only [Prod.mk.injEq] at h
  exact ⟨r.1, Prod.ext rfl h.2, h.1.symm⟩

theorem finished_length_known (hchunk : 1 ≤ chunkBytes) (fuel n : Nat) (hok : StreamOk st)
    {total : Nat} (hsize : st.snapshotSize = some total) {chunks : List (List UInt8)}
    (h : chunkedStream serve chunkBytes fuel n st = (chunks, .finished)) :
    st.offset + chunks.flatten.length = total := by
  induction fuel generalizing n st chunks with
  | zero => simp [chunkedStream] at h
  | succ fuel ih =>
    rw [chunkedStream] at h
    split at h
    · simp at h
    · rename_i hstep
      simp only [Prod.mk.injEq, and_true] at h
      subst h
      have hinside := (hok.inside total hsize).1
      have hend : total ≤ st.offset := by
        by_contra hlt
        unfold chunkedStep at hstep
        simp only [hsize, Option.any_some, decide_eq_true_eq, if_neg hlt] at hstep
        split at hstep
        · simp at hstep
        · split at hstep
          · simp at hstep
          · split at hstep <;> simp at hstep
      simp only [List.flatten_nil, List.length_nil]
      omega
    · rename_i chunk next hstep
      obtain ⟨hok', hsize', hoffset, _⟩ := chunkedStep_progress hchunk hok hsize hstep
      obtain ⟨rest, hrun, rfl⟩ := yielded_finished h
      have hrest := ih (n + 1) hok' hsize' hrun
      rw [List.flatten_cons, List.length_append]
      omega

/-- A stream that finishes has read from `start` to the total of the first
answer. -/
theorem finished_length (hchunk : 1 ≤ chunkBytes) {start fuel : Nat} (hstart : start ≤ u64Max)
    {chunks : List (List UInt8)}
    (h : chunkedStream serve chunkBytes fuel 0 ⟨start, none⟩ = (chunks, .finished)) :
    ∃ total, firstTotal serve chunkBytes start = some total ∧ start ≤ total ∧
      chunks.flatten.length = total - start := by
  cases fuel with
  | zero => simp [chunkedStream] at h
  | succ fuel =>
    rw [chunkedStream] at h
    split at h
    · simp at h
    · rename_i hstep
      unfold chunkedStep at hstep
      simp only [Option.any_none, Bool.false_eq_true, if_false, streamState_stop hchunk] at hstep
      split at hstep
      · simp at hstep
      · split at hstep <;> simp at hstep
    · rename_i chunk next hstep
      obtain ⟨hok, hoffset, _, ⟨total, hsize⟩, _⟩ :=
        chunkedStep_advances hchunk (streamOk_start hstart) hstep
      obtain ⟨rest, hrun, rfl⟩ := yielded_finished h
      have hrest := finished_length_known hchunk fuel 1 hok hsize hrun
      refine ⟨total, (firstTotal_of_step hstep).symm.trans hsize, ?_⟩
      rw [List.flatten_cons, List.length_append]
      simp only at hoffset
      omega

end Runs

/-! ## An append-only file -/

/-- A correct answer to the range from `start` to `stop` of a file: the
bytes of the range that the file has, or the whole file if it ends inside
a range from its start, or a 416 if the file ends before the range. -/
def ServesRange (file : List UInt8) (start stop : Nat) : Reply → Prop
  | .error _ => False
  | .ok r =>
    (r.contentEncoding = none ∨ r.contentEncoding = some "identity") ∧
    (r.contentLength = none ∨ r.contentLength = some r.body.length) ∧ r.fault = none ∧
    ((r.status = 206 ∧ start < file.length ∧
        r.contentRange = some (contentRangeText start (min stop (file.length - 1)) file.length) ∧
        r.body = (file.take (stop + 1)).drop start) ∨
      (r.status = 200 ∧ start = 0 ∧ file.length ≤ stop + 1 ∧ r.body = file) ∨
      (r.status = 416 ∧ file.length ≤ start))

/-- The `n`-th request is answered from `files n`; the file only grows. -/
structure ServesFile (serve : Nat → Nat → Nat → Reply) (files : Nat → List UInt8) : Prop where
  appends : ∀ n, files n <+: files (n + 1)
  fits : ∀ n, (files n).length ≤ u64Max
  serves : ∀ n start stop, start ≤ stop → ServesRange (files n) start stop (serve n start stop)

theorem expectedRange_served {r : Response} {start stop total : Nat} (hstatus : r.status = 206)
    (hstart : start < total) (hstop : start ≤ stop) (htotal : total ≤ u64Max)
    (hrange : r.contentRange = some (contentRangeText start (min stop (total - 1)) total)) :
    expectedRange r start stop =
      .ok (some (min stop (total - 1) - start + 1), some total) := by
  have hlast : start ≤ min stop (total - 1) := by omega
  have hlt : min stop (total - 1) < total := by omega
  unfold expectedRange rangeAccepted
  rw [if_pos hstatus, hrange, Option.getD_some]
  simp only [parseContentRange_text (show min stop (total - 1) ≤ u64Max by omega) htotal]
  rw [if_pos ⟨contentRangeStartsAt_text (by omega), hlt, hlast⟩,
    subU64_eq (show 1 ≤ total by omega), subU64_eq hlast]
  simp only [addU64_eq (show min stop (total - 1) - start + 1 ≤ u64Max by omega), decide_true]

/-- A correct answer is accepted as the bytes of the range, unless the file
ends before it. -/
theorem acceptChunk_served {r : Response} {file : List UInt8} {start stop : Nat}
    (hstop : start ≤ stop) (hlimit : stop - start + 1 + 2 ^ 63 ≤ u64Max)
    (hfile : file.length ≤ u64Max) (h : ServesRange file start stop (.ok r))
    (hstatus : r.status ≠ 416) :
    acceptChunk r start stop = .ok ((file.take (stop + 1)).drop start, file.length) := by
  obtain ⟨hencoding, hlength, hfault, hserved⟩ := h
  have hcheck : checkEncoding r = .ok () := by
    unfold checkEncoding
    rcases hencoding with h | h
    · rw [h]
    · rw [h]
      exact if_pos (by decide)
  -- The bytes, and what the status promises of them.
  obtain ⟨hok, hbody, len, total, hexpected, hpromised, htotal⟩ :
      ¬ (r.status < 200 ∨ 300 ≤ r.status) ∧ r.body = (file.take (stop + 1)).drop start ∧
      ∃ len total, expectedRange r start stop = .ok (len, total) ∧
        len.any (· ≠ r.body.length) = false ∧ total.getD r.body.length = file.length := by
    rcases hserved with ⟨h206, hlt, hrange, hbody⟩ | ⟨h200, rfl, hle, hbody⟩ | ⟨h416, _⟩
    · refine ⟨by omega, hbody, _, _, expectedRange_served h206 hlt hstop hfile hrange, ?_, rfl⟩
      have hlen : r.body.length = min stop (file.length - 1) - start + 1 := by
        rw [hbody, List.length_drop, List.length_take]
        omega
      simp [hlen]
    · refine ⟨by omega, ?_, none, none, ?_, rfl, ?_⟩
      · rw [hbody, List.take_of_length_le hle, List.drop_zero]
      · unfold expectedRange
        rw [if_neg (by omega), if_pos ⟨h200, rfl⟩]
      · rw [Option.getD_none, hbody]
    · exact absurd h416 hstatus
  have hbodyLength : r.body.length ≤ stop - start + 1 := by
    rw [hbody, List.length_drop, List.length_take]
    omega
  have hcontent : r.contentLength.any (stop - start + 1 < ·) = false := by
    rcases hlength with h | h
    · rw [h]
      rfl
    · rw [h]
      simpa using hbodyLength
  have hread : readBody (stop - start + 1) none [] r.pieces = .ok r.body :=
    readBody_eq hlimit r.pieces [] (by simpa [Response.body] using hbodyLength)
  unfold acceptChunk
  rw [if_neg hok]
  simp only [hexpected, hcheck, subU64_eq hstop,
    addU64_eq (show stop - start + 1 ≤ u64Max by omega), hcontent, Bool.false_eq_true, if_false,
    hfault, hread, hpromised, htotal]
  rw [hbody]

section Served

variable {serve : Nat → Nat → Nat → Reply} {files : Nat → List UInt8} {chunkBytes : Nat}

theorem ServesFile.grows (h : ServesFile serve files) (n : Nat) : files 0 <+: files n := by
  induction n with
  | zero => exact List.prefix_rfl
  | succ n ih => exact ih.trans (h.appends n)

/-- A turn on a file that goes on after the offset yields the next bytes
of the file. -/
theorem chunkedStep_served (h : ServesFile serve files) (hchunk : 1 ≤ chunkBytes)
    (hmax : chunkBytes ≤ downloadChunkBytes) (n : Nat) (st : StreamState)
    (hopen : st.offset < st.snapshotSize.getD (files n).length)
    (hsize : st.snapshotSize.getD (files n).length ≤ (files n).length) :
    ∃ stop, st.offset ≤ stop ∧ stop < st.snapshotSize.getD u64Max ∧
      chunkedStep (serve n) chunkBytes st =
        .ok (some (((files n).take (stop + 1)).drop st.offset,
          ⟨st.offset + (((files n).take (stop + 1)).drop st.offset).length,
            some (st.snapshotSize.getD (files n).length)⟩)) := by
  have hfits := h.fits n
  have hgetD : st.snapshotSize.getD (files n).length ≤ st.snapshotSize.getD u64Max := by
    cases st.snapshotSize with
    | none => simpa using hfits
    | some total => simp
  have hgetD' : st.snapshotSize.getD u64Max ≤ u64Max := by
    cases hsnapshot : st.snapshotSize with
    | none => simp
    | some total =>
      simp only [hsnapshot, Option.getD_some] at hsize ⊢
      omega
  refine ⟨min (min (st.offset + (chunkBytes - 1)) u64Max) (st.snapshotSize.getD u64Max - 1),
    by omega, by omega, ?_⟩
  generalize hstop : min (min (st.offset + (chunkBytes - 1)) u64Max)
    (st.snapshotSize.getD u64Max - 1) = stop
  have hle : st.offset ≤ stop := by omega
  have hlimit : stop - st.offset + 1 + 2 ^ 63 ≤ u64Max := by
    unfold downloadChunkBytes at hmax
    unfold u64Max at *
    omega
  have hclosed : st.snapshotSize.any (· ≤ st.offset) = false := by
    cases hsnapshot : st.snapshotSize with
    | none => rfl
    | some total =>
      rw [hsnapshot, Option.getD_some] at hopen
      simpa using hopen
  have hserved := h.serves n st.offset stop hle
  cases hserve : serve n st.offset stop with
  | error message =>
    rw [hserve] at hserved
    exact hserved.elim
  | ok r =>
    rw [hserve] at hserved
    have hstatus : r.status ≠ 416 := by
      intro h416
      obtain ⟨_, _, _, ⟨h206, _⟩ | ⟨h200, _⟩ | ⟨_, hend⟩⟩ := hserved <;> omega
    have hbytes : st.offset + (((files n).take (stop + 1)).drop st.offset).length ≤ u64Max := by
      rw [List.length_drop, List.length_take]
      omega
    unfold chunkedStep downloadChunk
    rw [hclosed, streamState_stop hchunk, hstop]
    simp only [Bool.false_eq_true, if_false, if_neg (show ¬ stop < st.offset by omega), hserve,
      acceptChunk_served hle hlimit hfits hserved hstatus, addU64_eq hbytes]

/-- Once the size of the file is fixed, the stream does not fail, and what
it yields until it finishes is the rest of that file. -/
theorem served_known (h : ServesFile serve files) (hchunk : 1 ≤ chunkBytes)
    (hmax : chunkBytes ≤ downloadChunkBytes) (fuel n : Nat) (st : StreamState)
    (hsize : st.snapshotSize = some (files 0).length) (hoffset : st.offset ≤ (files 0).length) :
    (∀ e, (chunkedStream serve chunkBytes fuel n st).2 ≠ .failed e) ∧
      ∀ chunks, chunkedStream serve chunkBytes fuel n st = (chunks, .finished) →
        chunks.flatten = (files 0).drop st.offset := by
  induction fuel generalizing n st with
  | zero => simp [chunkedStream]
  | succ fuel ih =>
    by_cases hend : (files 0).length ≤ st.offset
    · have hstep : chunkedStep (serve n) chunkBytes st = .ok none := by
        unfold chunkedStep
        rw [hsize]
        exact if_pos (by simpa using hend)
      rw [chunkedStream, hstep]
      refine ⟨by simp, ?_⟩
      rintro chunks heq
      simp only [Prod.mk.injEq, and_true] at heq
      rw [← heq, List.drop_of_length_le hend]
      rfl
    · obtain ⟨tail, htail⟩ := h.grows n
      have hlength : (files 0).length ≤ (files n).length := by
        rw [← htail, List.length_append]
        omega
      obtain ⟨stop, hstart, hstop, hstep⟩ := chunkedStep_served h hchunk hmax n st
        (by rw [hsize, Option.getD_some]; omega) (by rw [hsize, Option.getD_some]; omega)
      rw [hsize, Option.getD_some] at hstop hstep
      -- The snapshot ends the range, so the bytes are those of the first file.
      have hbytes : ((files n).take (stop + 1)).drop st.offset =
          ((files 0).take (stop + 1)).drop st.offset := by
        rw [← htail, List.take_append_of_le_length (by omega)]
      rw [hbytes] at hstep
      have hlen : (((files 0).take (stop + 1)).drop st.offset).length = stop + 1 - st.offset := by
        rw [List.length_drop, List.length_take]
        omega
      obtain ⟨hfailed, hrest⟩ := ih (n + 1) ⟨st.offset +
        (((files 0).take (stop + 1)).drop st.offset).length, some (files 0).length⟩ rfl
        (by simp only [hlen]; omega)
      rw [chunkedStream, hstep]
      refine ⟨hfailed, ?_⟩
      intro chunks heq
      obtain ⟨rest, hrun, rfl⟩ := yielded_finished heq
      rw [List.flatten_cons, hrest rest hrun, hlen]
      have hnext : st.offset + (stop + 1 - st.offset) = stop + 1 := by omega
      rw [hnext, ← List.drop_append_of_le_length (by rw [List.length_take]; omega),
        List.take_append_drop]

/-- The first answer reports the size of the file. -/
theorem firstTotal_served (h : ServesFile serve files) (hchunk : 1 ≤ chunkBytes)
    (hmax : chunkBytes ≤ downloadChunkBytes) {start total : Nat} (hstart : start ≤ u64Max)
    (htotal : firstTotal serve chunkBytes start = some total) : total = (files 0).length := by
  unfold firstTotal downloadChunk at htotal
  simp only [streamState_stop hchunk, Option.getD_none] at htotal
  generalize hstop : min (min (start + (chunkBytes - 1)) u64Max) (u64Max - 1) = stop at htotal
  by_cases hrange : stop < start
  · simp [hrange] at htotal
  · have hle : start ≤ stop := by omega
    have hlimit : stop - start + 1 + 2 ^ 63 ≤ u64Max := by
      unfold downloadChunkBytes at hmax
      unfold u64Max at *
      omega
    have hserved := h.serves 0 start stop hle
    rw [if_neg hrange] at htotal
    cases hserve : serve 0 start stop with
    | error message => simp [hserve] at htotal
    | ok r =>
      rw [hserve] at hserved
      by_cases hstatus : r.status = 416
      · simp [hserve, acceptChunk, hstatus] at htotal
      · simp only [hserve, acceptChunk_served hle hlimit (h.fits 0) hserved hstatus,
          Option.some.injEq] at htotal
        exact htotal.symm

/-- A stream from inside the file does not fail. -/
theorem served_ne_failed (h : ServesFile serve files) (hchunk : 1 ≤ chunkBytes)
    (hmax : chunkBytes ≤ downloadChunkBytes) {start : Nat} (hinside : start < (files 0).length)
    (fuel : Nat) :
    (∀ e, (chunkedStream serve chunkBytes fuel 0 ⟨start, none⟩).2 ≠ .failed e) ∧
      ∀ chunks, chunkedStream serve chunkBytes fuel 0 ⟨start, none⟩ = (chunks, .finished) →
        chunks.flatten = (files 0).drop start := by
  cases fuel with
  | zero => simp [chunkedStream]
  | succ fuel =>
    obtain ⟨stop, hstart, _, hstep⟩ := chunkedStep_served h hchunk hmax 0 ⟨start, none⟩
      (by simpa using hinside) (by simp)
    simp only [Option.getD_none] at hstart hstep
    have hlen : (((files 0).take (stop + 1)).drop start).length =
        min (stop + 1) (files 0).length - start := by
      rw [List.length_drop, List.length_take]
    obtain ⟨hfailed, hrest⟩ := served_known h hchunk hmax fuel 1
      ⟨start + (((files 0).take (stop + 1)).drop start).length, some (files 0).length⟩ rfl
      (by simp only [hlen]; omega)
    rw [chunkedStream, hstep]
    refine ⟨hfailed, ?_⟩
    intro chunks heq
    obtain ⟨rest, hrun, rfl⟩ := yielded_finished heq
    rw [List.flatten_cons, hrest rest hrun, hlen]
    have hnext : start + (min (stop + 1) (files 0).length - start) =
        min (stop + 1) (files 0).length := by omega
    rw [hnext, ← List.drop_append_of_le_length (by rw [List.length_take]; omega)]
    congr 1
    rw [List.take_eq_take_min, List.take_append_drop]

theorem served_finished (h : ServesFile serve files) (hchunk : 1 ≤ chunkBytes)
    (hmax : chunkBytes ≤ downloadChunkBytes) {start fuel : Nat} (hstart : start ≤ u64Max)
    {chunks : List (List UInt8)}
    (hrun : chunkedStream serve chunkBytes fuel 0 ⟨start, none⟩ = (chunks, .finished)) :
    firstTotal serve chunkBytes start = some (files 0).length ∧ start ≤ (files 0).length ∧
      chunks.flatten = (files 0).drop start := by
  obtain ⟨total, hfirst, hle, hlength⟩ := finished_length hchunk hstart hrun
  obtain rfl := firstTotal_served h hchunk hmax hstart hfirst
  refine ⟨hfirst, hle, ?_⟩
  by_cases hinside : start < (files 0).length
  · exact (served_ne_failed h hchunk hmax hinside fuel).2 chunks hrun
  · rw [List.drop_of_length_le (by omega)]
    exact List.length_eq_zero_iff.mp (by omega)

/-- What the worker gets is what `Delivers` says of a download. -/
theorem served_delivers (h : ServesFile serve files) (hchunk : 1 ≤ chunkBytes)
    (hmax : chunkBytes ≤ downloadChunkBytes) {start fuel : Nat} (hstart : start ≤ u64Max)
    {chunks : List (List UInt8)}
    (hrun : chunkedStream serve chunkBytes fuel 0 ⟨start, none⟩ = (chunks, .finished)) :
    Delivers (files 0) start ⟨chunks, none⟩ :=
  (served_finished h hchunk hmax hstart hrun).2

end Served

/-- The chunked download, for every start, every chunk size up to
`DOWNLOAD_CHUNK_BYTES` and every server: it ends or fails; an accepted
answer moves the offset by the bytes it brought, and one that brings none
is an empty 200 at offset 0 after which the stream is over; no arithmetic
leaves `u64`; a stream that finishes has read from `start` to the total of
the first answer. On an append-only file it reads that part of the file,
and from a start inside the file it does finish. -/
theorem chunked_download (serve : Nat → Nat → Nat → Reply) (start chunkBytes : Nat)
    (hstart : start ≤ u64Max) (hchunk : 1 ≤ chunkBytes) (hmax : chunkBytes ≤ downloadChunkBytes) :
    (∃ fuel, (chunkedStream serve chunkBytes fuel 0 ⟨start, none⟩).2 ≠ .running) ∧
    (∀ n st chunk st', streamAfter serve chunkBytes start n = some st →
      chunkedStep (serve n) chunkBytes st = .ok (some (chunk, st')) →
      st'.offset = st.offset + chunk.length ∧
        (1 ≤ chunk.length ∨
          st.offset = 0 ∧ chunk = [] ∧
            (∃ stop r, serve n 0 stop = .ok r ∧ r.status = 200 ∧ r.body = []) ∧
            ∀ serve', chunkedStep serve' chunkBytes st' = .ok none)) ∧
    (∀ fuel, (chunkedStream serve chunkBytes fuel 0 ⟨start, none⟩).2 ≠ .failed .overflow) ∧
    (∀ fuel chunks, chunkedStream serve chunkBytes fuel 0 ⟨start, none⟩ = (chunks, .finished) →
      ∃ total, firstTotal serve chunkBytes start = some total ∧ start ≤ total ∧
        chunks.flatten.length = total - start) ∧
    ∀ files, ServesFile serve files →
      (∀ fuel chunks, chunkedStream serve chunkBytes fuel 0 ⟨start, none⟩ = (chunks, .finished) →
        ∃ total, firstTotal serve chunkBytes start = some total ∧
          ∀ n, chunks.flatten = ((files n).take total).drop start) ∧
      (start < (files 0).length → ∃ fuel chunks,
        chunkedStream serve chunkBytes fuel 0 ⟨start, none⟩ = (chunks, .finished)) := by
  refine ⟨stream_ends hchunk hstart, ?_,
    fun fuel => stream_ne_overflow hchunk hmax fuel 0 (streamOk_start hstart),
    fun fuel chunks => finished_length hchunk hstart, ?_⟩
  · intro n st chunk st' hst hstep
    have hok := streamOk_after hchunk hstart n hst
    obtain ⟨hok', hoffset, _, _, hbytes⟩ := chunkedStep_advances hchunk hok hstep
    refine ⟨hoffset, ?_⟩
    by_cases hne : chunk = []
    · obtain ⟨hzero, hsize, hserved⟩ := hbytes.resolve_left fun h => h hne
      refine .inr ⟨hzero, hne, hserved, fun serve' => ?_⟩
      unfold chunkedStep
      rw [hsize]
      exact if_pos (by simp)
    · exact .inl (List.length_pos_iff.mpr hne)
  · intro files hfiles
    constructor
    · intro fuel chunks hrun
      obtain ⟨hfirst, _, hbytes⟩ := served_finished hfiles hchunk hmax hstart hrun
      refine ⟨_, hfirst, fun n => ?_⟩
      rw [hbytes, ← List.prefix_iff_eq_take.mp (hfiles.grows n)]
    · intro hinside
      obtain ⟨fuel, hended⟩ :
          ∃ fuel, (chunkedStream serve chunkBytes fuel 0 ⟨start, none⟩).2 ≠ .running :=
        stream_ends hchunk hstart
      refine ⟨fuel, (chunkedStream serve chunkBytes fuel 0 ⟨start, none⟩).1, ?_⟩
      have hfailed := (served_ne_failed hfiles hchunk hmax hinside fuel).1
      refine Prod.ext rfl ?_
      cases hend : (chunkedStream serve chunkBytes fuel 0 ⟨start, none⟩).2 with
      | running => exact absurd hend hended
      | finished => rfl
      | failed e => exact absurd hend (hfailed e)

/-- A server of ranges. -/
def rangeServer (files : Nat → List UInt8) (n start stop : Nat) : Reply :=
  let body := ((files n).take (stop + 1)).drop start
  if h : start < (files n).length ∧ body.length < 2 ^ 63 then
    .ok
      { status := 206
        contentRange := some
          (contentRangeText start (min stop ((files n).length - 1)) (files n).length)
        pieces := [⟨body, h.2⟩] }
  else .ok { status := 416 }

theorem rangeServer_servesFile {files : Nat → List UInt8} (happends : ∀ n, files n <+: files (n + 1))
    (hfits : ∀ n, (files n).length < 2 ^ 63) : ServesFile (rangeServer files) files := by
  refine ⟨happends, fun n => ?_, fun n start stop _ => ?_⟩
  · have := hfits n
    unfold u64Max
    omega
  · have hbody : (((files n).take (stop + 1)).drop start).length < 2 ^ 63 := by
      have := hfits n
      rw [List.length_drop, List.length_take]
      omega
    unfold rangeServer
    by_cases hinside : start < (files n).length
    · rw [dif_pos ⟨hinside, hbody⟩]
      exact ⟨.inl rfl, .inl rfl, rfl, .inl ⟨rfl, hinside, rfl, by simp [Response.body]⟩⟩
    · rw [dif_neg fun h => hinside h.1]
      exact ⟨.inl rfl, .inl rfl, rfl, .inr (.inr ⟨rfl, by omega⟩)⟩

/-- `+a\n`, and from the second request on `+a\n+b\n`. -/
def growingFile (n : Nat) : List UInt8 :=
  if n = 0 then [43, 97, 10] else [43, 97, 10, 43, 98, 10]

/-- Two bytes at a time, while the file grows: the file as the first
answer saw it. -/
theorem chunked_download_growing : ∃ fuel chunks,
    chunkedStream (rangeServer growingFile) 2 fuel 0 ⟨0, none⟩ = (chunks, .finished) ∧
      chunks.flatten = [43, 97, 10] := by
  have happends : ∀ n, growingFile n <+: growingFile (n + 1) := by
    intro n
    cases n with
    | zero => decide
    | succ n => simp [growingFile]
  have hserves := rangeServer_servesFile happends fun n => by
    unfold growingFile
    split <;> decide
  obtain ⟨_, _, _, _, hfiles⟩ := chunked_download (rangeServer growingFile) 0 2 (by decide)
    (by decide) (by decide)
  obtain ⟨hbytes, hfinishes⟩ := hfiles growingFile hserves
  obtain ⟨fuel, chunks, hrun⟩ := hfinishes (by decide)
  obtain ⟨total, hfirst, hbody⟩ := hbytes fuel chunks hrun
  obtain rfl := firstTotal_served hserves (by decide) (by decide) (by decide) hfirst
  exact ⟨fuel, chunks, hrun, (hbody 0).trans (by decide)⟩

end ForwardProxy.IdList
