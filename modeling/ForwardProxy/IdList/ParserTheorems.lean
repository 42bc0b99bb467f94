/-
ForwardProxy.IdList.ParserTheorems — decoding does not depend on where a
download is cut, and what a file means at each of its line ends.

`completeLines_append` is the chunking fact: the lines of `x ++ y` are the
lines of `x` followed by the lines of what `x` left over and `y`. From it,
`changes` of a longer file extends `changes` of a shorter one, which is
what an append-only file is.

`Lag` is how a forward set that is being loaded relates to its file when
the recorded checkpoint may be behind the set. Member by member it is the
replay of some cut at or after the checkpoint. Applying the lines after
the checkpoint again restores it at the new checkpoint (`Lag.advance`),
and at the last line end of the file it is an equality (`Lag.eq_replay`).
-/
import Mathlib.Data.List.Basic
import ForwardProxy.IdList.Parser

namespace ForwardProxy.IdList

/-! ## Lines -/

/-- The bytes of complete lines. -/
def unlines (lines : List (List UInt8)) : List UInt8 := lines.flatMap (· ++ [newline])

theorem completeLines_append : ∀ x y : List UInt8,
    completeLines (x ++ y) =
      ((completeLines x).1 ++ (completeLines ((completeLines x).2 ++ y)).1,
        (completeLines ((completeLines x).2 ++ y)).2)
  | [], y => by simp [completeLines]
  | b :: x, y => by
      have ih := completeLines_append x y
      by_cases hb : b = newline
      · simp [completeLines, hb, ih]
      · cases hx : (completeLines x).1 with
        | cons line lines => simp [completeLines, hb, ih, hx]
        | nil =>
          -- No newline in `x`: its first byte stays in front of what is left over.
          rw [List.cons_append, completeLines, completeLines, if_neg hb, if_neg hb, ih, hx]
          simp only [List.nil_append, List.cons_append]
          rw [completeLines, if_neg hb]

theorem unlines_append (a b : List (List UInt8)) : unlines (a ++ b) = unlines a ++ unlines b := by
  simp [unlines]

theorem consumed_append (a b : List (List UInt8)) :
    CompleteLineDecoder.consumed (a ++ b) =
      CompleteLineDecoder.consumed a + CompleteLineDecoder.consumed b := by
  simp [CompleteLineDecoder.consumed]

theorem length_unlines : ∀ lines : List (List UInt8),
    (unlines lines).length = CompleteLineDecoder.consumed lines
  | [] => rfl
  | line :: lines => by
      have ih := length_unlines lines
      simp only [unlines, CompleteLineDecoder.consumed] at ih
      simp only [unlines, CompleteLineDecoder.consumed, List.flatMap_cons, List.length_append,
        List.length_singleton, List.map_cons, List.sum_cons, ih]

/-- A buffer is its complete lines and the bytes after them. -/
theorem unlines_completeLines : ∀ x : List UInt8,
    unlines (completeLines x).1 ++ (completeLines x).2 = x
  | [] => rfl
  | b :: x => by
      have ih := unlines_completeLines x
      by_cases hb : b = newline
      · simp only [completeLines, if_pos hb]
        simpa [unlines, hb] using ih
      · cases hx : (completeLines x).1 with
        | nil =>
          rw [hx] at ih
          simpa [completeLines, hb, hx, unlines] using ih
        | cons line lines =>
          rw [hx] at ih
          simpa [completeLines, hb, hx, unlines] using ih

theorem newline_not_mem_completeLines : ∀ x : List UInt8, ∀ line ∈ (completeLines x).1,
    newline ∉ line
  | [], line, h => by simp [completeLines] at h
  | b :: x, line, h => by
      have ih := newline_not_mem_completeLines x
      by_cases hb : b = newline
      · simp only [completeLines, if_pos hb, List.mem_cons] at h
        rcases h with rfl | h
        · simp
        · exact ih line h
      · cases hx : (completeLines x).1 with
        | nil => simp [completeLines, hb, hx] at h
        | cons first lines =>
          simp only [completeLines, if_neg hb, hx, List.mem_cons] at h
          rcases h with rfl | h
          · have hfirst := ih first (by simp [hx])
            simpa [hfirst] using fun he : newline = b => hb he.symm
          · exact ih line (by simp [hx, h])

theorem completeLines_line : ∀ line rest : List UInt8, newline ∉ line →
    completeLines (line ++ newline :: rest) = (line :: (completeLines rest).1, (completeLines rest).2)
  | [], rest, _ => by simp [completeLines]
  | b :: line, rest, h => by
      have hb : b ≠ newline := fun he => h (by simp [he])
      have ih := completeLines_line line rest fun hm => h (by simp [hm])
      rw [List.cons_append, completeLines, if_neg hb, ih]

/-- Complete lines are read back. -/
theorem completeLines_unlines : ∀ lines : List (List UInt8), (∀ line ∈ lines, newline ∉ line) →
    completeLines (unlines lines) = (lines, [])
  | [], _ => rfl
  | line :: lines, h => by
      have ih := completeLines_unlines lines fun l hl => h l (by simp [hl])
      have hcons : unlines (line :: lines) = line ++ newline :: unlines lines := by
        simp [unlines]
      rw [hcons, completeLines_line line _ (h line (by simp)), ih]

/-! ## Decoding -/

theorem lineChange_of_ok {line : List UInt8} {change : Option FileChange}
    (h : decodeChange line = .ok change) : lineChange line = change := by
  rw [lineChange, h]

theorem decodeLines_cons {offset : Nat} {line : List UInt8} {lines : List (List UInt8)}
    {decoded : List DecodedLine} (h : decodeLines offset (line :: lines) = .ok decoded) :
    ∃ rest, decodeLines (offset + line.length + 1) lines = .ok rest ∧
      decoded = ⟨lineChange line, offset + line.length + 1⟩ :: rest := by
  rw [decodeLines] at h
  cases hline : decodeChange line with
  | error e => simp [hline] at h
  | ok change =>
    cases hrest : decodeLines (offset + line.length + 1) lines with
    | error e => simp [hline, hrest] at h
    | ok rest =>
      simp only [hline, hrest, Except.ok.injEq] at h
      exact ⟨rest, rfl, by rw [lineChange_of_ok hline, h]⟩

theorem push_ok {d d' : CompleteLineDecoder} {chunk : List UInt8} {decoded : List DecodedLine}
    (h : d.push chunk = .ok (decoded, d')) :
    decodeLines d.nextOffset (completeLines (d.pending ++ chunk)).1 = .ok decoded ∧
      d' = ⟨(completeLines (d.pending ++ chunk)).2,
        d.nextOffset + CompleteLineDecoder.consumed (completeLines (d.pending ++ chunk)).1⟩ := by
  unfold CompleteLineDecoder.push at h
  cases hd : decodeLines d.nextOffset (completeLines (d.pending ++ chunk)).1 with
  | error e => simp [hd] at h
  | ok ls =>
    simp only [hd, Except.ok.injEq, Prod.mk.injEq] at h
    exact ⟨congrArg _ h.1, h.2.symm⟩

/-! ## Replay -/

theorem replay_append (a b : List FileChange) :
    replay (a ++ b) = b.foldl FileChange.apply (replay a) :=
  List.foldl_append

/-- A change moves only its own member. -/
theorem apply_of_ne {s : Finset String} {c : FileChange} {m : String} (h : c.member ≠ m) :
    m ∈ FileChange.apply s c ↔ m ∈ s := by
  unfold FileChange.apply
  have hne : m ≠ c.member := fun he => h he.symm
  split
  · simp [hne]
  · simp [hne]

theorem apply_self {s : Finset String} {c : FileChange} :
    c.member ∈ FileChange.apply s c ↔ c.add = true := by
  unfold FileChange.apply
  split <;> simp_all

/-- Changes that do not name `m` leave it alone. -/
theorem foldl_apply_frame {m : String} : ∀ (cs : List FileChange) (s : Finset String),
    (∀ c ∈ cs, c.member ≠ m) → (m ∈ cs.foldl FileChange.apply s ↔ m ∈ s)
  | [], _, _ => Iff.rfl
  | c :: cs, s, h => by
      rw [List.foldl_cons, foldl_apply_frame cs _ fun c' hc' => h c' (by simp [hc']),
        apply_of_ne (h c (by simp))]

/-- Changes that name `m` forget what was there before. -/
theorem foldl_apply_indep {m : String} : ∀ (cs : List FileChange) (s t : Finset String),
    (∃ c ∈ cs, c.member = m) →
      (m ∈ cs.foldl FileChange.apply s ↔ m ∈ cs.foldl FileChange.apply t)
  | [], _, _, h => by simp at h
  | c :: cs, s, t, h => by
      by_cases hcs : ∃ c' ∈ cs, c'.member = m
      · exact foldl_apply_indep cs _ _ hcs
      · have hframe : ∀ c' ∈ cs, c'.member ≠ m := fun c' hc' he => hcs ⟨c', hc', he⟩
        have hc : c.member = m := by
          obtain ⟨c', hc', he⟩ := h
          rcases List.mem_cons.mp hc' with rfl | hc'
          · exact he
          · exact absurd he (hframe c' hc')
        rw [List.foldl_cons, List.foldl_cons, foldl_apply_frame cs _ hframe,
          foldl_apply_frame cs _ hframe, ← hc, apply_self, apply_self]

theorem lastSign_concat (m : String) (cs : List FileChange) (c : FileChange) :
    lastSign m (cs ++ [c]) = if c.member = m then some c.add else lastSign m cs := by
  unfold lastSign
  rw [List.filter_append]
  by_cases h : c.member = m
  · simp [h]
  · simp [h]

/-- The replay holds `m` exactly when the last line about `m` is `+m`. -/
theorem mem_replay_iff (m : String) (cs : List FileChange) :
    m ∈ replay cs ↔ lastSign m cs = some true := by
  induction cs using List.reverseRecOn with
  | nil => simp [replay, lastSign]
  | append_singleton cs c ih =>
    have hstep : replay (cs ++ [c]) = FileChange.apply (replay cs) c := by
      rw [replay_append]
      rfl
    rw [hstep, lastSign_concat]
    split
    · rename_i h
      subst h
      rw [apply_self, Option.some.injEq]
    · rename_i h
      rw [apply_of_ne h, ih]

/-! ## Line ends of a file -/

/-- An offset at which a line of the file ends (or the file starts). -/
def Boundary (file : List UInt8) (offset : Nat) : Prop :=
  offset ≤ file.length ∧ (completeLines (file.take offset)).2 = []

theorem boundary_zero (file : List UInt8) : Boundary file 0 := ⟨by simp, by simp [completeLines]⟩

/-- A file that has grown keeps its line ends. -/
theorem Boundary.mono {file file' : List UInt8} {offset : Nat} (h : Boundary file offset)
    (hp : file <+: file') : Boundary file' offset := by
  obtain ⟨tail, rfl⟩ := hp
  refine ⟨by rw [List.length_append]; have := h.1; omega, ?_⟩
  rw [List.take_append_of_le_length h.1]
  exact h.2

/-- The complete lines of a file from an offset on. -/
def linesFrom (file : List UInt8) (start : Nat) : List (List UInt8) :=
  (completeLines (file.drop start)).1

/-- The offset after the first `j` lines from `start`. -/
def offsetAt (file : List UInt8) (start j : Nat) : Nat :=
  start + CompleteLineDecoder.consumed ((linesFrom file start).take j)

/-- The changes of the lines `i` to `j` from `start`. -/
def changesBetween (file : List UInt8) (start i j : Nat) : List FileChange :=
  (((linesFrom file start).take j).drop i).filterMap lineChange

@[simp]
theorem changesBetween_self (file : List UInt8) (start i : Nat) :
    changesBetween file start i i = [] := by
  unfold changesBetween
  simp [List.drop_eq_nil_of_le (List.length_take_le i _)]

theorem changesBetween_append {file : List UInt8} {start i j k : Nat} (hij : i ≤ j) (hjk : j ≤ k) :
    changesBetween file start i j ++ changesBetween file start j k =
      changesBetween file start i k := by
  unfold changesBetween
  rw [← List.filterMap_append]
  congr 1
  have htake : (linesFrom file start).take j = ((linesFrom file start).take k).take j := by
    rw [List.take_take, Nat.min_eq_left hjk]
  rw [htake]
  generalize (linesFrom file start).take k = ls
  rw [List.drop_take]
  have hdrop : ls.drop j = (ls.drop i).drop (j - i) := by
    rw [List.drop_drop, Nat.add_sub_cancel' hij]
  rw [hdrop, List.take_append_drop]

theorem offsetAt_zero (file : List UInt8) (start : Nat) : offsetAt file start 0 = start := by
  simp [offsetAt, CompleteLineDecoder.consumed]

theorem consumed_mono {a b : List (List UInt8)} (h : a <+: b) :
    CompleteLineDecoder.consumed a ≤ CompleteLineDecoder.consumed b := by
  obtain ⟨c, rfl⟩ := h
  rw [consumed_append]
  omega

theorem offsetAt_mono (file : List UInt8) (start : Nat) {i j : Nat} (h : i ≤ j) :
    offsetAt file start i ≤ offsetAt file start j := by
  have hp : (linesFrom file start).take i <+: (linesFrom file start).take j :=
    List.take_prefix_take_left h
  have := consumed_mono hp
  unfold offsetAt
  omega

/-- The bytes up to a line end are the bytes up to `start` and the lines
between. -/
theorem take_offsetAt {file : List UInt8} {start : Nat} (hstart : start ≤ file.length) (j : Nat) :
    file.take (offsetAt file start j) =
      file.take start ++ unlines ((linesFrom file start).take j) := by
  have hfile := unlines_completeLines (file.drop start)
  have hsplit : unlines ((linesFrom file start).take j) ++
      (unlines ((linesFrom file start).drop j) ++ (completeLines (file.drop start)).2) =
      file.drop start := by
    rw [← List.append_assoc, ← unlines_append, List.take_append_drop]
    exact hfile
  have hlen : (file.take start).length = start := List.length_take_of_le hstart
  calc file.take (offsetAt file start j)
      = (file.take start ++ file.drop start).take (offsetAt file start j) := by
        rw [List.take_append_drop]
    _ = file.take start ++ (file.drop start).take
          (CompleteLineDecoder.consumed ((linesFrom file start).take j)) := by
        rw [List.take_append, hlen]
        unfold offsetAt
        rw [Nat.add_sub_cancel_left, List.take_of_length_le]
        rw [hlen]
        omega
    _ = file.take start ++ unlines ((linesFrom file start).take j) := by
        congr 1
        rw [← hsplit, ← length_unlines, List.take_left]

theorem completeLines_boundary {file : List UInt8} {start : Nat} (h : Boundary file start)
    (j : Nat) : completeLines (file.take (offsetAt file start j)) =
      ((completeLines (file.take start)).1 ++ (linesFrom file start).take j, []) := by
  have hnl : ∀ line ∈ (linesFrom file start).take j, newline ∉ line := fun line hl =>
    newline_not_mem_completeLines _ line (List.mem_of_mem_take hl)
  rw [take_offsetAt h.1, completeLines_append, h.2, List.nil_append,
    completeLines_unlines _ hnl]

theorem offsetAt_le {file : List UInt8} {start : Nat} (h : start ≤ file.length) (j : Nat) :
    offsetAt file start j ≤ file.length := by
  have hlen := congrArg List.length (unlines_completeLines (file.drop start))
  rw [List.length_append, length_unlines, List.length_drop] at hlen
  have hp : (linesFrom file start).take j <+: linesFrom file start := List.take_prefix _ _
  have hle := consumed_mono hp
  have heq : CompleteLineDecoder.consumed (linesFrom file start) =
      CompleteLineDecoder.consumed (completeLines (file.drop start)).1 := rfl
  unfold offsetAt
  omega

theorem Boundary.offsetAt {file : List UInt8} {start : Nat} (h : Boundary file start) (j : Nat) :
    Boundary file (offsetAt file start j) :=
  ⟨offsetAt_le h.1 j, by rw [completeLines_boundary h]⟩

/-- What the file means at a line end, from what it means at an earlier
one. -/
theorem changes_offsetAt {file : List UInt8} {start : Nat} (h : Boundary file start) (j : Nat) :
    changes (file.take (offsetAt file start j)) =
      changes (file.take start) ++ changesBetween file start 0 j := by
  unfold changes changesBetween
  rw [completeLines_boundary h, List.filterMap_append, List.drop_zero]

/-- A longer cut of the file only adds changes. -/
theorem changes_take_prefix (file : List UInt8) {j k : Nat} (h : j ≤ k) :
    changes (file.take j) <+: changes (file.take k) := by
  have hk : file.take k = file.take j ++ (file.take k).drop j := by
    conv_lhs => rw [← List.take_append_drop j (file.take k), List.take_take, Nat.min_eq_left h]
  rw [hk]
  unfold changes
  rw [completeLines_append, List.filterMap_append]
  exact List.prefix_append _ _

/-- After the last line end the file says nothing more. -/
theorem changes_offsetAt_last {file : List UInt8} {start : Nat} (h : Boundary file start) :
    changes (file.take (offsetAt file start (linesFrom file start).length)) = changes file := by
  have hfile : changes file =
      changes (file.take start) ++ (linesFrom file start).filterMap lineChange := by
    conv_lhs => rw [← List.take_append_drop start file]
    unfold changes linesFrom
    rw [completeLines_append, h.2, List.nil_append, List.filterMap_append]
  rw [changes_offsetAt h, hfile, changesBetween, List.drop_zero, List.take_length]

/-! ## A set that may be ahead of its checkpoint -/

/-- Every member is in `s` as at some cut of the file at or after the
checkpoint. -/
def Lag (file : List UInt8) (checkpoint : Nat) (s : Finset String) : Prop :=
  ∀ m, ∃ k, checkpoint ≤ k ∧ k ≤ file.length ∧ (m ∈ s ↔ m ∈ replay (changes (file.take k)))

namespace Lag

variable {file file' : List UInt8} {start checkpoint checkpoint' : Nat} {s : Finset String}

theorem of_replay (h : checkpoint ≤ file.length) :
    Lag file checkpoint (replay (changes (file.take checkpoint))) :=
  fun _ => ⟨checkpoint, Nat.le_refl _, h, Iff.rfl⟩

theorem anti (h : Lag file checkpoint' s) (hle : checkpoint ≤ checkpoint') :
    Lag file checkpoint s := by
  intro m
  obtain ⟨k, hk, hlen, hm⟩ := h m
  exact ⟨k, Nat.le_trans hle hk, hlen, hm⟩

/-- A file that has grown still describes the set. -/
theorem grow (h : Lag file checkpoint s) (hp : file <+: file') : Lag file' checkpoint s := by
  obtain ⟨tail, rfl⟩ := hp
  intro m
  obtain ⟨k, hk, hlen, hm⟩ := h m
  refine ⟨k, hk, by rw [List.length_append]; omega, ?_⟩
  rw [List.take_append_of_le_length hlen]
  exact hm

/-- Applying the lines after the checkpoint, some of them perhaps for the
second time, gives a set that describes the later checkpoint. -/
theorem advance (h : Lag file start s) (hb : Boundary file start) (j : Nat) :
    Lag file (offsetAt file start j)
      ((changesBetween file start 0 j).foldl FileChange.apply s) := by
  have hle := (hb.offsetAt j).1
  have hlast : replay (changes (file.take (offsetAt file start j))) =
      (changesBetween file start 0 j).foldl FileChange.apply (replay (changes (file.take start))) := by
    rw [changes_offsetAt hb, replay_append]
  intro m
  by_cases hnamed : ∃ c ∈ changesBetween file start 0 j, c.member = m
  · refine ⟨offsetAt file start j, Nat.le_refl _, hle, ?_⟩
    rw [hlast]
    exact foldl_apply_indep _ _ _ hnamed
  · have hframe : ∀ c ∈ changesBetween file start 0 j, c.member ≠ m :=
      fun c hc he => hnamed ⟨c, hc, he⟩
    obtain ⟨k, hk, hlen, hm⟩ := h m
    by_cases hkj : offsetAt file start j ≤ k
    · exact ⟨k, hkj, hlen, (foldl_apply_frame _ s hframe).trans hm⟩
    · -- `m` is not named between the two cuts, so the later one says the same of it.
      refine ⟨offsetAt file start j, Nat.le_refl _, hle, ?_⟩
      rw [foldl_apply_frame _ s hframe, hm]
      obtain ⟨ds, hds⟩ := changes_take_prefix file hk
      obtain ⟨es, hes⟩ := changes_take_prefix file (Nat.le_of_not_le hkj)
      have hsplit : ds ++ es = changesBetween file start 0 j := by
        have := changes_offsetAt hb j
        rw [← hes, ← hds, List.append_assoc] at this
        exact List.append_cancel_left this
      rw [← hes, replay_append]
      refine (foldl_apply_frame es _ fun c hc => hframe c ?_).symm
      rw [← hsplit]
      exact List.mem_append_right ds hc

/-- At the last line end there is only one cut left. -/
theorem eq_replay (h : Lag file checkpoint s)
    (hlast : changes (file.take checkpoint) = changes file) :
    s = replay (changes (file.take checkpoint)) := by
  ext m
  obtain ⟨k, hk, hlen, hm⟩ := h m
  have h₁ := changes_take_prefix file hk
  have h₂ : changes (file.take k) <+: changes file := by
    conv_rhs => rw [← List.take_length (l := file)]
    exact changes_take_prefix file hlen
  have heq : changes (file.take checkpoint) = changes (file.take k) := by
    rw [hlast] at h₁ ⊢
    exact h₁.eq_of_length (Nat.le_antisymm h₁.length_le h₂.length_le)
  rw [hm, heq]

end Lag

end ForwardProxy.IdList
