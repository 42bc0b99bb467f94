/-
ForwardProxy.IdList.FileStreamTheorems — a download applied to a forward
set, line by line, in batches of any size.

`wp_fileStream` is the loop, once for both modes and over any store. It is
given what a batch does between two line ends `i ≤ j` of the file (`A i`
to `A j`), and concludes what the whole stream does: the chunk borders
and the batch borders have disappeared from its statement. The load mode
and the delta mode are two instances on views.
-/
import ForwardProxy.IdList.ParserTheorems
import ForwardProxy.IdList.StreamedDiffTheorems

namespace ForwardProxy.IdList

open Effect

theorem changesBetween_succ {file : List UInt8} {start i k : Nat} (hik : i ≤ k)
    (hk : k < (linesFrom file start).length) :
    changesBetween file start i (k + 1) =
      changesBetween file start i k ++ (lineChange ((linesFrom file start).get ⟨k, hk⟩)).toList := by
  rw [← changesBetween_append hik (Nat.le_succ k)]
  congr 1
  unfold changesBetween
  have hdrop : ((linesFrom file start).take (k + 1)).drop k =
      [(linesFrom file start).get ⟨k, hk⟩] := by
    rw [List.drop_take, Nat.add_sub_cancel_left, List.take_one, List.head?_drop]
    simp [hk]
  rw [hdrop, List.filterMap_cons]
  cases lineChange ((linesFrom file start).get ⟨k, hk⟩) <;> rfl

theorem offsetAt_succ {file : List UInt8} {start k : Nat}
    (hk : k < (linesFrom file start).length) :
    offsetAt file start (k + 1) =
      offsetAt file start k + ((linesFrom file start).get ⟨k, hk⟩).length + 1 := by
  unfold offsetAt
  rw [← List.take_concat_get' _ _ hk, consumed_append]
  have hone : CompleteLineDecoder.consumed [(linesFrom file start)[k]] =
      ((linesFrom file start)[k]).length + 1 := by
    simp [CompleteLineDecoder.consumed]
  show _ = _ + ((linesFrom file start)[k]).length + 1
  omega

theorem offsetAt_pos {file : List UInt8} {start i : Nat} (hi : 0 < i)
    (hle : i ≤ (linesFrom file start).length) : start < offsetAt file start i := by
  have hlines : 0 < (linesFrom file start).length := Nat.lt_of_lt_of_le hi hle
  have hfirst := offsetAt_succ hlines
  have hmono := offsetAt_mono file start (i := 0 + 1) hi
  rw [offsetAt_zero] at hfirst
  omega

namespace IdListSyncWorker

/-! ## The loop -/

section

variable (w : IdListSyncWorker) {S : Type} {H : Handler Cmd Cmd.Reply S} {id : ListId}
  {ver url : String} {mode : FileApplyMode} {file : List UInt8} {start fileSize : Nat}
  {A : Nat → Bool → S → Prop} {X : S → Prop} {s : S}

/-- The lines `i` to `j` are sent as one batch: it is full, or it is what
is left at the end. -/
def BatchOf (file : List UInt8) (start i j : Nat) : Prop :=
  i ≤ j ∧ 0 < j ∧ j ≤ (linesFrom file start).length ∧
    ((changesBetween file start i j).length = w.config.pipelineBatchSize ∨
      (changesBetween file start i j).length < w.config.pipelineBatchSize ∧
        j = (linesFrom file start).length)

/-- The flag after a batch: only a load with an addition clears it. -/
def stillFirst (mode : FileApplyMode) (first : Bool) (batch : List FileChange) : Bool :=
  first && !(decide (mode = .load) && batch.any (·.add))

/-- What is asked of a store for the loop to go through. `A i first` holds
when `i` lines are applied and the flag of the first load batch is
`first`; a batch takes it from line `i` to line `j`. -/
structure StreamSpec (H : Handler Cmd Cmd.Reply S) (id : ListId) (ver : String)
    (mode : FileApplyMode) (file : List UInt8) (start : Nat) (A : Nat → Bool → S → Prop)
    (X : S → Prop) : Prop where
  exit : ∀ {i first s}, A i first s → X s
  held : ∀ {i first s r s'}, A i first s → H.step s .held r s' → A i first s'
  batch : ∀ {i j first s}, w.BatchOf file start i j → A i first s →
    Wp H (w.applyFileBatch id ver mode (changesBetween file start i j) (offsetAt file start j) first)
      (fun _ s' => A j (stillFirst mode first (changesBetween file start i j)) s') X s

/-- `k` lines have been decoded, `i` of them are applied and the rest wait
in the batch, which is not full. -/
def StreamAt (file : List UInt8) (start : Nat) (A : Nat → Bool → S → Prop) (k : Nat)
    (st : StreamState) (s : S) : Prop :=
  ∃ i ≤ k, A i st.firstLoadBatch s ∧ st.batch = changesBetween file start i k ∧
    st.batch.length < w.config.pipelineBatchSize ∧ st.batchCheckpoint = offsetAt file start k

variable {w}

theorem StreamAt.exit (hspec : w.StreamSpec H id ver mode file start A X) {k : Nat}
    {st : StreamState} (h : w.StreamAt file start A k st s) : X s := by
  obtain ⟨i, _, hs, _⟩ := h
  exact hspec.exit hs

theorem wp_heldThen (hspec : w.StreamSpec H id ver mode file start A X) {k : Nat} {st : StreamState}
    (h : w.StreamAt file start A k st s) {β : Type} {f : Unit → Redis β} {Q : β → S → Prop}
    (hf : ∀ s', w.StreamAt file start A k st s' → Wp H (f ()) Q X s') :
    Wp H (ensureHeld >>= f) Q X s := by
  refine Wp.seq (P := fun _ s' => w.StreamAt file start A k st s') ?_ fun _ s' hs' => hf s' hs'
  refine Wp.cmdBind (h.exit hspec) ?_
  intro r s' hstep
  obtain ⟨i, hik, hs, hrest⟩ := h
  have hs' : w.StreamAt file start A k st s' := ⟨i, hik, hspec.held hs hstep, hrest⟩
  exact Wp.ite (fun _ => .pure (hs'.exit hspec) hs') fun _ => .throw (hs'.exit hspec)

theorem wp_streamLine (hspec : w.StreamSpec H id ver mode file start A X) {k : Nat}
    {st : StreamState} (hk : k < (linesFrom file start).length)
    (h : w.StreamAt file start A k st s) :
    Wp H
      (w.streamLine id ver mode st
        ⟨lineChange ((linesFrom file start).get ⟨k, hk⟩), offsetAt file start (k + 1)⟩)
      (fun st' s' => w.StreamAt file start A (k + 1) st' s' ∧ st'.decoder = st.decoder) X s := by
  obtain ⟨i, hik, hs, hbt, hlt, hcp⟩ := h
  have hfull : st.batch ++ (lineChange ((linesFrom file start).get ⟨k, hk⟩)).toList =
      changesBetween file start i (k + 1) := by
    rw [hbt, changesBetween_succ hik hk]
  -- A line adds at most one change, so a batch is sent as soon as it is full.
  have hle : (changesBetween file start i (k + 1)).length ≤ w.config.pipelineBatchSize := by
    have hone : ∀ c : Option FileChange, c.toList.length ≤ 1 := by
      intro c
      cases c <;> simp
    have hline := hone (lineChange ((linesFrom file start).get ⟨k, hk⟩))
    rw [← hfull, List.length_append]
    omega
  unfold streamLine
  simp only [hfull]
  refine Wp.ite (fun hsent => ?_) fun hsent => ?_
  · have hbatch : w.BatchOf file start i (k + 1) :=
      ⟨by omega, by omega, hk, .inl (Nat.le_antisymm hle hsent)⟩
    refine Wp.seq (hspec.batch hbatch hs) ?_
    intro _ s' hs'
    refine .pure (hspec.exit hs') ⟨⟨k + 1, Nat.le_refl _, hs', ?_, ?_, rfl⟩, rfl⟩
    · exact (changesBetween_self file start (k + 1)).symm
    · exact w.config.pipelineBatchSize_pos
  · exact .pure (hspec.exit hs) ⟨⟨i, by omega, hs, rfl, Nat.not_le.mp hsent, rfl⟩, rfl⟩

/-- The lines of one chunk. -/
theorem wp_streamLines (hspec : w.StreamSpec H id ver mode file start A X) :
    ∀ (raw : List (List UInt8)) (k : Nat) (decoded : List DecodedLine) (st : StreamState)
      (s : S), raw <+: (linesFrom file start).drop k →
      decodeLines (offsetAt file start k) raw = .ok decoded →
      w.StreamAt file start A k st s →
      Wp H (Prog.fold (w.streamLine id ver mode) st decoded)
        (fun st' s' => w.StreamAt file start A (k + raw.length) st' s' ∧
          st'.decoder = st.decoder) X s
  | [], k, decoded, st, s, _, hdec, h => by
      obtain rfl : [] = decoded := by simpa [decodeLines] using hdec
      exact .pure (h.exit hspec) ⟨h, rfl⟩
  | line :: raw, k, decoded, st, s, hraw, hdec, h => by
      obtain ⟨tail, htail⟩ := hraw
      have hk : k < (linesFrom file start).length := by
        have := congrArg List.length htail
        simp only [List.length_append, List.length_cons, List.length_drop] at this
        omega
      have hget : (linesFrom file start).get ⟨k, hk⟩ = line ∧
          (linesFrom file start).drop (k + 1) = raw ++ tail := by
        rw [List.drop_eq_getElem_cons hk, List.cons_append, List.cons.injEq] at htail
        exact ⟨htail.1.symm, htail.2.symm⟩
      obtain ⟨rest, hrest, rfl⟩ := decodeLines_cons hdec
      have hoff : offsetAt file start k + line.length + 1 = offsetAt file start (k + 1) := by
        rw [offsetAt_succ hk, hget.1]
      rw [hoff] at hrest ⊢
      have hline := wp_streamLine hspec hk h
      rw [hget.1] at hline
      refine Wp.seq hline ?_
      rintro st' s' ⟨hst', hd'⟩
      have hind := wp_streamLines hspec raw (k + 1) rest st' s' ⟨tail, hget.2.symm⟩ hrest hst'
      rw [hd', Nat.add_right_comm] at hind
      exact hind

/-- The chunks of a download: `seen` are the bytes of those already
processed. -/
theorem wp_streamChunks (hspec : w.StreamSpec H id ver mode file start A X) :
    ∀ (body : List (List UInt8)) (seen : List UInt8) (st : StreamState) (s : S),
      (seen ++ body.flatten) <+: file.drop start →
      w.StreamAt file start A (completeLines seen).1.length st s →
      st.decoder = ⟨(completeLines seen).2,
        start + CompleteLineDecoder.consumed (completeLines seen).1⟩ →
      Wp H (Prog.fold (w.streamChunk id ver mode) st body)
        (fun st' s' => w.StreamAt file start A
          (completeLines (seen ++ body.flatten)).1.length st' s') X s
  | [], seen, st, s, _, h, _ => by
      rw [List.flatten_nil, List.append_nil]
      exact .pure (h.exit hspec) h
  | chunk :: body, seen, st, s, hpre, h, hdec => by
      refine Wp.seq (P := fun st' s' =>
        w.StreamAt file start A (completeLines (seen ++ chunk)).1.length st' s' ∧
        st'.decoder = ⟨(completeLines (seen ++ chunk)).2,
          start + CompleteLineDecoder.consumed (completeLines (seen ++ chunk)).1⟩) ?_ ?_
      · refine wp_heldThen hspec h ?_
        intro s₁ h₁
        cases hpush : st.decoder.push chunk with
        | error e => exact .throw (h₁.exit hspec)
        | ok res =>
          obtain ⟨decoded, decoder⟩ := res
          obtain ⟨hlines, hdecoder⟩ := push_ok hpush
          rw [hdec] at hlines hdecoder
          simp only at hlines hdecoder
          -- The lines of the file start with the lines of what has been received.
          have hall : (completeLines (seen ++ chunk)).1 <+: linesFrom file start := by
            obtain ⟨tail, htail⟩ := hpre
            rw [List.flatten_cons, ← List.append_assoc, List.append_assoc _ _ tail] at htail
            rw [linesFrom, ← htail, completeLines_append (seen ++ chunk)]
            exact List.prefix_append _ _
          rw [completeLines_append seen chunk] at hall ⊢
          have hseen : (completeLines seen).1 =
              (linesFrom file start).take (completeLines seen).1.length :=
            List.prefix_iff_eq_take.mp ((List.prefix_append _ _).trans hall)
          have hoff : offsetAt file start (completeLines seen).1.length =
              start + CompleteLineDecoder.consumed (completeLines seen).1 := by
            rw [offsetAt, ← hseen]
          have hnext : (completeLines ((completeLines seen).2 ++ chunk)).1 <+:
              (linesFrom file start).drop (completeLines seen).1.length := by
            obtain ⟨tail, htail⟩ := hall
            rw [← htail, List.append_assoc, List.drop_left]
            exact List.prefix_append _ _
          rw [← hoff] at hlines
          refine (wp_streamLines hspec _ _ decoded { st with decoder } s₁ hnext hlines
            h₁).mono ?_ fun _ hx => hx
          rintro st' s' ⟨hst', hd'⟩
          refine ⟨by simpa only [List.length_append] using hst', ?_⟩
          rw [hd', hdecoder, consumed_append, Nat.add_assoc]
      · rintro st' s' ⟨hst', hd'⟩
        rw [List.flatten_cons, ← List.append_assoc] at hpre ⊢
        exact wp_streamChunks hspec body (seen ++ chunk) st' s' hpre hst' hd'

/-- A download that ends is applied up to the last line end of the file. -/
theorem wp_fileStream (hspec : w.StreamSpec H id ver mode file start A X)
    (hfetch : ∀ s d s', A 0 true s → H.step s (.fetch url start fileSize) d s' →
      A 0 true s' ∧ Delivers file start d) (h : A 0 true s) :
    Wp H (w.applyFileStream id ver url start fileSize mode)
      (fun r s' => start ≤ file.length ∧
        (∃ first, A (linesFrom file start).length first s') ∧
        r.checkpoint = offsetAt file start (linesFrom file start).length) X s := by
  refine Wp.cmdBind (hspec.exit h) ?_
  intro d s₀ hstep
  obtain ⟨h₀, hd⟩ := hfetch s d s₀ h hstep
  have hpre : d.chunks.flatten <+: file.drop start := by
    unfold Delivers at hd
    split at hd
    · rw [hd.2]
    · exact hd
  have hinit : w.StreamAt file start A (completeLines []).1.length
      ⟨.new start, [], start, 0, true⟩ s₀ :=
    ⟨0, Nat.le_refl _, h₀, by simp [completeLines],
      w.config.pipelineBatchSize_pos, by simp [offsetAt_zero, completeLines]⟩
  refine Wp.seq (wp_streamChunks hspec d.chunks [] ⟨.new start, [], start, 0, true⟩ s₀
    (by simpa using hpre) hinit (by simp [CompleteLineDecoder.new, completeLines,
      CompleteLineDecoder.consumed])) ?_
  intro st s' hst
  cases hfault : d.fault with
  | some e => exact wp_heldThen hspec hst fun s'' hst' => .throw (hst'.exit hspec)
  | none =>
    obtain ⟨i, hik, hs', hbt, hlt, hcp⟩ := hst
    rw [Delivers, hfault] at hd
    obtain ⟨hlen, hall⟩ := hd
    rw [List.nil_append, hall] at hik hbt hcp
    have hk : (completeLines (file.drop start)).1.length = (linesFrom file start).length := rfl
    rw [hk] at hik hbt hcp
    refine Wp.seq (P := fun _ s' => ∃ first, A (linesFrom file start).length first s') ?_ ?_
    · refine Wp.when (fun hmoved => ?_) (fun _ => hspec.exit hs') fun hle => ?_
      · have hmoved : start < st.batchCheckpoint := by simpa using hmoved
        have hpos : 0 < (linesFrom file start).length := by
          by_contra hzero
          rw [hcp, Nat.eq_zero_of_not_pos hzero, offsetAt_zero] at hmoved
          omega
        rw [hbt] at hlt
        rw [hbt, hcp]
        exact (hspec.batch ⟨hik, hpos, Nat.le_refl _, .inr ⟨hlt, rfl⟩⟩ hs').mono
          (fun _ _ h => ⟨_, h⟩) fun _ h => h
      · -- No complete line at all.
        have hle : st.batchCheckpoint ≤ start := by simpa using hle
        have hzero : (linesFrom file start).length = 0 := by
          by_contra hne
          have hpos := offsetAt_pos (Nat.pos_of_ne_zero hne) (Nat.le_refl _)
          omega
        have hi : i = 0 := by omega
        rw [hzero, ← hi]
        exact ⟨_, hs'⟩
    · intro _ s'' hs''
      exact .pure (hs''.elim fun _ h => hspec.exit h) ⟨hlen, hs'', hcp⟩

end

variable (w : IdListSyncWorker) {origin : String → List UInt8} {id : ListId}
  {X : ListView → Prop} {v : ListView} {ver url : String} {mode : FileApplyMode}
  {start fileSize : Nat} {A : Nat → ListView → Prop}

/-- What is asked of a batch, on views: it takes the checkpoint from line
`i` to line `j`. -/
def BatchSpec (origin : String → List UInt8) (id : ListId) (ver url : String)
    (mode : FileApplyMode) (start : Nat) (A : Nat → ListView → Prop) (X : ListView → Prop) : Prop :=
  ∀ i j first v, i ≤ j → 0 < j → j ≤ (linesFrom (origin url) start).length → A i v →
    Wp (listRedis origin id)
      (w.applyFileBatch id ver mode (changesBetween (origin url) start i j)
        (offsetAt (origin url) start j) first)
      (fun _ v' => A j v') X v

theorem wp_applyFileStream (hA : ∀ i v, A i v → X v)
    (hbatch : w.BatchSpec origin id ver url mode start A X) (h : A 0 v) :
    Wp (listRedis origin id) (w.applyFileStream id ver url start fileSize mode)
      (fun r v' => start ≤ (origin url).length ∧
        A (linesFrom (origin url) start).length v' ∧
        r.checkpoint = offsetAt (origin url) start (linesFrom (origin url) start).length)
      X v := by
  have hspec : w.StreamSpec (listRedis origin id) id ver mode (origin url) start
      (fun i _ v => A i v) X := by
    refine ⟨fun h => hA _ _ h, ?_, ?_⟩
    · intro i first v r v' hv hstep
      obtain rfl : v' = v := hstep
      exact hv
    · intro i j first v hb hv
      exact hbatch i j first v hb.1 hb.2.1 hb.2.2.1 hv
  refine (wp_fileStream hspec ?_ h).mono ?_ fun _ h => h
  · intro v d v' hv hstep
    obtain ⟨hd, rfl⟩ := hstep
    exact ⟨hv, hd⟩
  · intro r v' hr
    obtain ⟨hlen, ⟨_, hv'⟩, hcp⟩ := hr
    exact ⟨hlen, hv', hcp⟩

/-! ## Load mode -/

/-- The forward set of `ver` after the first `j` lines from `start`. -/
def fwdAt (v : ListView) (ver : String) (file : List UInt8) (start j : Nat) : Finset String :=
  (changesBetween file start 0 j).foldl FileChange.apply (v.fwd ver)

theorem fwdAt_zero (v : ListView) (ver : String) (file : List UInt8) (start : Nat) :
    fwdAt v ver file start 0 = v.fwd ver := by
  simp [fwdAt]

theorem fwdAt_foldl (v : ListView) (ver : String) (file : List UInt8) (start : Nat) {i j : Nat}
    (h : i ≤ j) : (changesBetween file start i j).foldl FileChange.apply
      (fwdAt v ver file start i) = fwdAt v ver file start j := by
  unfold fwdAt
  rw [← List.foldl_append, changesBetween_append (Nat.zero_le i) h]

/-- The state hash of a load whose checkpoint is line `i`. -/
def loadState (v : ListView) (ver : String) (file : List UInt8) (start i : Nat) : StateHash :=
  if i = 0 then v.state
  else { v.state with
    loadingSize := some (offsetAt file start i)
    loadingCardinality := some (fwdAt v ver file start i).card }

/-- A load whose checkpoint is line `i` and whose set is at line `j`. -/
def loadAt (v : ListView) (ver : String) (file : List UInt8) (start i j : Nat) : ListView :=
  (v.setFwd ver (fwdAt v ver file start j)).setState (loadState v ver file start i)

theorem loadAt_zero (v : ListView) (ver : String) (file : List UInt8) (start : Nat) :
    loadAt v ver file start 0 0 = v := by
  simp [loadAt, loadState, fwdAt_zero, ListView.setFwd, ListView.setState]

theorem after_fwdWrite (c : FileChange) :
    v.after id (fwdWrite id ver c) = v.setFwd ver (FileChange.apply (v.fwd ver) c) := by
  unfold fwdWrite FileChange.apply
  split
  · exact v.after_saddFwd ver c.member
  · exact v.after_sremFwd ver c.member

theorem fwdWrite_isHdelDict (c : FileChange) : (fwdWrite id ver c).isHdelDict = false := by
  unfold fwdWrite
  split <;> rfl

theorem foldl_after_fwdWrite : ∀ (cs : List FileChange) (v : ListView),
    (cs.map (fwdWrite id ver)).foldl (ListView.after id) v =
      v.setFwd ver (cs.foldl FileChange.apply (v.fwd ver))
  | [], v => by simp [ListView.setFwd]
  | c :: cs, v => by
      rw [List.map_cons, List.foldl_cons, after_fwdWrite, foldl_after_fwdWrite cs]
      simp [ListView.setFwd]

/-- The whole batch is one step, and installing a TTL does not show. -/
theorem foldl_after_loadBatch (cs : List FileChange) (first : Bool) :
    (loadBatch id ver cs first).foldl (ListView.after id) v =
      v.setFwd ver (cs.foldl FileChange.apply (v.fwd ver)) := by
  unfold loadBatch
  rw [List.foldl_append, foldl_after_fwdWrite]
  split <;> simp

theorem loadBatch_isHdelDict (cs : List FileChange) (first : Bool) :
    ∀ wr ∈ loadBatch id ver cs first, wr.isHdelDict = false := by
  intro wr hwr
  unfold loadBatch at hwr
  rcases List.mem_append.mp hwr with h | h
  · obtain ⟨c, _, rfl⟩ := List.mem_map.mp h
    exact fwdWrite_isHdelDict c
  · split at h
    · obtain rfl := List.mem_singleton.mp h
      rfl
    · simp at h

/-- A load stream applies the file up to its last line end. Cut off, it
leaves a checkpoint `i` and a set that is at `i` or one batch ahead. -/
theorem wp_loadStream :
    Wp (listRedis origin id) (w.applyFileStream id ver url start fileSize .load)
      (fun r v' => start ≤ (origin url).length ∧
        v' = loadAt v ver (origin url) start (linesFrom (origin url) start).length
          (linesFrom (origin url) start).length ∧
        r.checkpoint = offsetAt (origin url) start (linesFrom (origin url) start).length)
      (fun v' => ∃ i j, i ≤ j ∧ v' = loadAt v ver (origin url) start i j) v := by
  refine w.wp_applyFileStream (A := fun i v' => v' = loadAt v ver (origin url) start i i) ?_ ?_ ?_
  · rintro i v' rfl
    exact ⟨i, i, Nat.le_refl i, rfl⟩
  · rintro i j first v' hij hj _ rfl
    have hfwd : (loadAt v ver (origin url) start i i).fwd ver = fwdAt v ver (origin url) start i := by
      simp [loadAt]
    refine wp_multi (loadBatch_isHdelDict _ _) ⟨i, i, Nat.le_refl i, rfl⟩ ?_
    rw [foldl_after_loadBatch, hfwd, fwdAt_foldl v ver _ _ hij]
    have hahead : (loadAt v ver (origin url) start i i).setFwd ver
        (fwdAt v ver (origin url) start j) = loadAt v ver (origin url) start i j := by
      simp [loadAt, ListView.setFwd, ListView.setState]
    rw [hahead]
    refine wp_scard (wp_write_end rfl ⟨i, j, hij, rfl⟩ ?_ ?_)
    all_goals
      have hstate : ((loadAt v ver (origin url) start i j).state.setAll
          [.loadingSize (offsetAt (origin url) start j),
            .loadingCardinality ((loadAt v ver (origin url) start i j).fwd ver).card]) =
          loadState v ver (origin url) start j := by
        have hne : j ≠ 0 := by omega
        by_cases hi : i = 0
        · simp [loadAt, loadState, hi, hne, StateHash.setAll, StateHash.set]
        · simp [loadAt, loadState, hi, hne, StateHash.setAll, StateHash.set]
      rw [ListView.after_hsetState, hstate]
    · exact ⟨j, j, Nat.le_refl j, rfl⟩
    · rfl
  · exact (loadAt_zero v ver _ _).symm

/-! ## Delta mode -/

/-- The tag set after the two commands of a change, when it was the
forward set before. -/
theorem fanned_apply (s : Finset String) (c : FileChange) :
    fanned c.add (s : Set String) {c.member} = (FileChange.apply s c : Finset String) := by
  unfold fanned FileChange.apply
  split
  · ext m
    simp
  · ext m
    simp [and_comm]

/-- The state hash of a delta whose checkpoint is line `i`. -/
def deltaState (v : ListView) (ver : String) (file : List UInt8) (start i : Nat) : StateHash :=
  if i = 0 then v.state
  else { v.state with
    size := some (offsetAt file start i)
    cardinality := some (fwdAt v ver file start i).card }

/-- A delta that is complete up to line `i`, in both indexes. -/
def deltaAt (v : ListView) (ver : String) (file : List UInt8) (start i : Nat) : ListView :=
  ((v.setFwd ver (fwdAt v ver file start i)).setTag (fwdAt v ver file start i)).setState
    (deltaState v ver file start i)

/-- A view with the same members in the forward set and in the index. -/
def bothSet (v : ListView) (ver : String) (s : Finset String) : ListView :=
  (v.setFwd ver s).setTag s

theorem wp_deltaChanges (hrev : w.config.enableReverseIndex = true) (cs : List FileChange)
    (hv : v.tag = v.fwd ver) :
    Wp (listRedis origin id) (Prog.forEach (w.deltaChange id ver v.tok) cs)
      (fun _ v' => v' = bothSet v ver (cs.foldl FileChange.apply (v.fwd ver)))
      (fun _ => True) v := by
  refine Wp.forEach (I := fun done v' =>
    v' = bothSet v ver (done.foldl FileChange.apply (v.fwd ver))) (fun _ _ _ => trivial)
    cs [] v ?_ ?_ fun _ h => h
  · rintro done c _ v' rfl
    unfold deltaChange
    rw [if_pos hrev]
    have htag : (bothSet v ver (done.foldl FileChange.apply (v.fwd ver))).after id
        (memberWrite id.skh v.tok c.add c.member) =
        (bothSet v ver (done.foldl FileChange.apply (v.fwd ver))).setTag
          (FileChange.apply (done.foldl FileChange.apply (v.fwd ver)) c : Finset String) := by
      rw [← fanned_apply]
      exact after_memberWrite (v := bothSet v ver _) c.add c.member
    refine wp_write (memberWrite_isHdelDict _ _ _ _) trivial
      (wp_write_end (fwdWrite_isHdelDict c) trivial trivial ?_)
    rw [htag, after_fwdWrite]
    simp [bothSet, ListView.setFwd, ListView.setTag]
  · simp [bothSet, ListView.setFwd, ListView.setTag, ← hv]

/-- A completed delta brings both indexes to the last line end of the
file. -/
theorem wp_applyDelta (hrev : w.config.enableReverseIndex = true) {state : ListSyncState}
    {md : TaskMetadata} (hv : v.tag = v.fwd state.version) :
    Wp (listRedis origin id) (w.applyDelta id state md)
      (fun _ v' => md.fileId = state.fileId ∧ state.size ≤ (origin md.url).length ∧
        md.size ≤ offsetAt (origin md.url) state.size
          (linesFrom (origin md.url) state.size).length ∧
        v' = deltaAt v state.version (origin md.url) state.size
          (linesFrom (origin md.url) state.size).length)
      (fun _ => True) v := by
  refine Wp.ite (fun _ => .throw trivial) fun hfile => ?_
  refine wp_ensureCurrentVersionPersisted (wp_getOrAllocateToken ?_)
  refine Wp.seq (w.wp_applyFileStream
    (A := fun i v' => v' = deltaAt v state.version (origin md.url) state.size i)
    (fun _ _ _ => trivial) ?_ ?_) ?_
  · rintro i j first v' hij hj _ rfl
    have hdelta : deltaAt v state.version (origin md.url) state.size i =
        (bothSet v state.version (fwdAt v state.version (origin md.url) state.size i)).setState
          (deltaState v state.version (origin md.url) state.size i) := rfl
    have hfwd : (deltaAt v state.version (origin md.url) state.size i).fwd state.version =
        fwdAt v state.version (origin md.url) state.size i := by
      simp [deltaAt]
    refine Wp.seq (w.wp_deltaChanges hrev
      (v := deltaAt v state.version (origin md.url) state.size i) _ ?_) ?_
    · rw [hfwd]
      rfl
    rintro _ v' rfl
    rw [hfwd, fwdAt_foldl v _ _ _ hij]
    refine wp_scard (wp_write_end rfl trivial trivial ?_)
    have hcard : ((bothSet (deltaAt v state.version (origin md.url) state.size i) state.version
        (fwdAt v state.version (origin md.url) state.size j)).fwd state.version) =
        fwdAt v state.version (origin md.url) state.size j := by
      simp [bothSet]
    have hne : j ≠ 0 := by omega
    rw [ListView.after_hsetState, hcard]
    by_cases hi : i = 0
    · simp [deltaAt, deltaState, bothSet, ListView.setState, ListView.setFwd, ListView.setTag, hi,
        hne, StateHash.setAll, StateHash.set]
    · simp [deltaAt, deltaState, bothSet, ListView.setState, ListView.setFwd, ListView.setTag, hi,
        hne, StateHash.setAll, StateHash.set]
  · simp [deltaAt, deltaState, fwdAt_zero, ListView.setFwd, ListView.setTag, ListView.setState,
      ← hv]
  · rintro r v' ⟨hlen, rfl, hcp⟩
    refine Wp.ite (fun _ => .throw trivial) fun hge => .pure trivial ⟨not_not.mp hfile, hlen, ?_, rfl⟩
    rw [← hcp]
    exact Nat.not_lt.mp hge

/-- However far a delta gets, in either mode, it changes only the forward
set of its version, the index and the two fields it checkpoints. -/
def DeltaFrame (v : ListView) (ver : String) (v' : ListView) : Prop :=
  (∃ size cardinality, v'.state = { v.state with size, cardinality }) ∧
    (∀ ver', ver' ≠ ver → v'.fwd ver' = v.fwd ver') ∧ v'.tok = v.tok

namespace DeltaFrame

variable {v' : ListView}

theorem refl (v : ListView) (ver : String) : DeltaFrame v ver v :=
  ⟨⟨v.state.size, v.state.cardinality, rfl⟩, fun _ _ => rfl, rfl⟩

theorem member (h : DeltaFrame v ver v') (skh m : String) (t : Nat) (add : Bool) :
    DeltaFrame v ver (v'.after id (memberWrite skh t add m)) := by
  obtain ⟨hfwd, hstate, htok⟩ := after_memberWrite_frame id skh m t add v'
  unfold DeltaFrame
  rw [hfwd, hstate, htok]
  exact h

theorem fwd (h : DeltaFrame v ver v') (s : Finset String) : DeltaFrame v ver (v'.setFwd ver s) := by
  refine ⟨h.1, fun ver' hne => ?_, h.2.2⟩
  rw [← h.2.1 ver' hne]
  simp [Function.update_of_ne hne]

end DeltaFrame

theorem wp_deltaFrame_change {v' : ListView} (token : Nat) (c : FileChange)
    (h : DeltaFrame v ver v') :
    Wp (listRedis origin id) (w.deltaChange id ver token c) (fun _ => DeltaFrame v ver)
      (DeltaFrame v ver) v' := by
  have hfwd : ∀ u, DeltaFrame v ver u →
      Wp (listRedis origin id) (write (fwdWrite id ver c)) (fun _ => DeltaFrame v ver)
        (DeltaFrame v ver) u := by
    intro u hu
    have hnext : DeltaFrame v ver (u.after id (fwdWrite id ver c)) := by
      rw [after_fwdWrite]
      exact hu.fwd _
    exact wp_write_end (fwdWrite_isHdelDict c) hu hnext hnext
  refine Wp.ite (fun _ => ?_) fun _ => hfwd v' h
  exact wp_write (memberWrite_isHdelDict _ _ _ _) h (hfwd _ (h.member _ _ _ _))

/-- A batch of a delta, in either mode: the checkpoint and the count of the
set are recorded together. -/
theorem wp_deltaFrame_batch {v' : ListView} (token : Nat) (cs : List FileChange) (checkpoint : Nat)
    (first : Bool) (h : DeltaFrame v ver v') :
    Wp (listRedis origin id) (w.applyFileBatch id ver (.delta token) cs checkpoint first)
      (fun _ u => DeltaFrame v ver u ∧ u.state.size = some checkpoint ∧
        u.state.cardinality = some (u.fwd ver).card) (DeltaFrame v ver) v' := by
  refine Wp.seq (P := fun _ => DeltaFrame v ver) ?_ fun _ u hu => ?_
  · exact Wp.forEach (I := fun _ => DeltaFrame v ver) (fun _ _ h => h) _ [] v'
      (fun _ c _ u hu => w.wp_deltaFrame_change token c hu) h fun _ h => h
  · have hnext : ∀ card, DeltaFrame v ver
        (u.setState (u.state.setAll [.size checkpoint, .cardinality card])) := by
      intro card
      obtain ⟨s₀, c₀, hs⟩ := hu.1
      refine ⟨⟨some checkpoint, some card, ?_⟩, hu.2.1, hu.2.2⟩
      simp [hs, StateHash.setAll, StateHash.set]
    refine wp_scard (wp_write_end rfl hu ?_ ?_)
    all_goals rw [ListView.after_hsetState]
    · exact hnext _
    · exact ⟨hnext _, rfl, rfl⟩

/-- A completed delta has brought the checkpoint to the size of its task,
and recorded the count of the set it left. -/
theorem wp_deltaFrame {state : ListSyncState} {md : TaskMetadata} :
    Wp (listRedis origin id) (w.applyDelta id state md)
      (fun _ u => DeltaFrame v state.version u ∧ (state.size < md.size →
        (∃ size, u.state.size = some size ∧ md.size ≤ size) ∧
          u.state.cardinality = some (u.fwd state.version).card))
      (DeltaFrame v state.version) v := by
  have hrefl := DeltaFrame.refl v state.version
  refine Wp.ite (fun _ => .throw hrefl) fun _ => ?_
  refine wp_ensureCurrentVersionPersisted (wp_getOrAllocateToken ?_)
  refine Wp.seq (w.wp_applyFileStream (A := fun i u => DeltaFrame v state.version u ∧
    (0 < i → u.state.size = some (offsetAt (origin md.url) state.size i) ∧
      u.state.cardinality = some (u.fwd state.version).card))
    (fun _ _ h => h.1) ?_ ⟨hrefl, fun h => absurd h (Nat.lt_irrefl 0)⟩) ?_
  · intro i j first v' _ _ _ h
    refine (w.wp_deltaFrame_batch v.tok _ _ first h.1).mono ?_ fun _ h => h
    exact fun _ u hu => ⟨hu.1, fun _ => hu.2⟩
  · intro r u hu
    obtain ⟨_, ⟨hframe, hchecked⟩, hcheckpoint⟩ := hu
    refine Wp.ite (fun _ => .throw hframe) fun hend => .pure hframe ⟨hframe, fun hsize => ?_⟩
    rw [hcheckpoint] at hend
    have hend := Nat.not_lt.mp hend
    have hpos : 0 < (linesFrom (origin md.url) state.size).length := by
      by_contra hzero
      rw [Nat.eq_zero_of_not_pos hzero, offsetAt_zero] at hend
      omega
    obtain ⟨hsize', hcard⟩ := hchecked hpos
    exact ⟨⟨_, hsize', hend⟩, hcard⟩

end IdListSyncWorker

end ForwardProxy.IdList
