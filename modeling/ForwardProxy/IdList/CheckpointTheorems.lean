/-
ForwardProxy.IdList.CheckpointTheorems — any number of attempts to apply
one file, each cut off anywhere.

A batch is applied before its checkpoint is written, so an attempt can
leave a forward set that is ahead of the stored checkpoint, in a delta
even in the middle of a batch. The next attempt starts at the checkpoint
and applies lines for the second time. `Lag` (in `ParserTheorems`) is the
relation between set and checkpoint that survives this: `AttemptAt` says
where one attempt can be, `Progress` what holds between attempts, and
`Attempts` are the runs, in which the file may grow.

The stored cardinality is the count at the time of the checkpoint and
belongs to a set that may have been ahead of it. It is the size of the
replay only when nothing of the file lies behind the checkpoint, which is
so when an attempt completes, and stays so however the file grew before.
-/
import ForwardProxy.Effect.Recording
import ForwardProxy.IdList.Script
import ForwardProxy.IdList.FileStreamTheorems

namespace ForwardProxy.IdList

open Effect

/-- Part of the changes between two lines are the changes up to a line in
between. -/
theorem changesBetween_prefix {file : List UInt8} {start i j : Nat} (hij : i ≤ j)
    (hj : j ≤ (linesFrom file start).length) {done : List FileChange}
    (h : done <+: changesBetween file start i j) :
    ∃ l, i ≤ l ∧ l ≤ j ∧ done = changesBetween file start i l := by
  induction j, hij using Nat.le_induction with
  | base =>
    refine ⟨i, Nat.le_refl i, Nat.le_refl i, ?_⟩
    rw [changesBetween_self] at h ⊢
    exact List.prefix_nil.mp h
  | succ k hik ih =>
    have hshorter : done <+: changesBetween file start i k →
        ∃ l, i ≤ l ∧ l ≤ k + 1 ∧ done = changesBetween file start i l := by
      intro hk
      obtain ⟨l, hil, hlk, hl⟩ := ih (Nat.le_of_succ_le hj) hk
      exact ⟨l, hil, Nat.le_succ_of_le hlk, hl⟩
    have hsucc := changesBetween_succ hik hj
    cases hline : lineChange ((linesFrom file start).get ⟨k, hj⟩) with
    | none =>
      rw [hline, Option.toList_none, List.append_nil] at hsucc
      exact hshorter (hsucc ▸ h)
    | some c =>
      rw [hline, Option.toList_some] at hsucc
      rcases List.prefix_concat_iff.mp (hsucc ▸ h) with heq | hk
      · exact ⟨k + 1, Nat.le_succ_of_le hik, Nat.le_refl _, heq.trans hsucc.symm⟩
      · exact hshorter hk

namespace IdListSyncWorker

/-! ## What an attempt stores -/

/-- The checkpoint of the mode, as it is stored. -/
def FileApplyMode.checkpoint (mode : FileApplyMode) (h : StateHash) : Option Nat :=
  match mode with
  | .delta _ => h.size
  | .load => h.loadingSize

/-- The cardinality stored with it. -/
def FileApplyMode.cardinality (mode : FileApplyMode) (h : StateHash) : Option Nat :=
  match mode with
  | .delta _ => h.cardinality
  | .load => h.loadingCardinality

/-- The checkpoint an attempt starts from. -/
def resumeAt (id : ListId) (mode : FileApplyMode) (db : Db) : Nat :=
  (mode.checkpoint (db.state id)).getD 0

/-- The checkpoints of a run so far, the last of which is the stored one,
are line ends and never go down. -/
structure Recorded (file : List UInt8) (checkpoint : Nat) (history : List Nat) : Prop where
  last : history.getLast? = some checkpoint
  sorted : history.Pairwise (· ≤ ·)
  boundary : ∀ c ∈ history, Boundary file c

theorem Recorded.append {file : List UInt8} {c c' : Nat} {history : List Nat}
    (h : Recorded file c history) (hle : c ≤ c') (hb : Boundary file c') :
    Recorded file c' (history ++ [c']) := by
  have hmax : ∀ x ∈ history, x ≤ c := by
    obtain ⟨init, rfl⟩ := List.getLast?_eq_some_iff.mp h.last
    intro x hx
    rcases List.mem_append.mp hx with hx | hx
    · exact (List.pairwise_append.mp h.sorted).2.2 x hx c (by simp)
    · exact Nat.le_of_eq (List.mem_singleton.mp hx)
  refine ⟨by simp, ?_, ?_⟩
  · refine List.pairwise_append.mpr ⟨h.sorted, by simp, ?_⟩
    intro x hx y hy
    rw [List.mem_singleton.mp hy]
    exact Nat.le_trans (hmax x hx) hle
  · intro x hx
    rcases List.mem_append.mp hx with hx | hx
    · exact h.boundary x hx
    · rw [List.mem_singleton.mp hx]
      exact hb

theorem Recorded.grow {file file' : List UInt8} {c : Nat} {history : List Nat}
    (h : Recorded file c history) (hp : file <+: file') : Recorded file' c history :=
  ⟨h.last, h.sorted, fun x hx => (h.boundary x hx).mono hp⟩

/-! ## Where one attempt can be -/

/-- The checkpoint of a view. -/
def viewCheckpoint (mode : FileApplyMode) (v : ListView) : Nat := (mode.checkpoint v.state).getD 0

/-- An attempt that started in `v` at `start` has stored the checkpoint of
line `i` and applied the changes up to line `l`. -/
structure AttemptAt (mode : FileApplyMode) (file : List UInt8) (ver : String) (start : Nat)
    (v : ListView) (i l : Nat) (s : ListView × List Nat) : Prop where
  le : i ≤ l
  fwd : s.1.fwd ver = fwdAt v ver file start l
  checkpoint : mode.checkpoint s.1.state = some (offsetAt file start i)
  cardinality : mode.cardinality s.1.state =
    if i = 0 then mode.cardinality v.state
    else some (fwdAt v ver file start i).card
  recorded : Recorded file (offsetAt file start i) s.2

variable {mode : FileApplyMode} {file : List UInt8} {ver : String} {start : Nat} {v : ListView}
  {i l l' j : Nat} {s s' : ListView × List Nat}

/-- A command that stores no checkpoint. -/
theorem AttemptAt.next (h : AttemptAt mode file ver start v i l s) (hb : Boundary file start)
    (hle : i ≤ l') (hfwd : s'.1.fwd ver = fwdAt v ver file start l')
    (hstate : s'.1.state = s.1.state) (hhistory : s'.2 = s.2 ++ [viewCheckpoint mode s'.1]) :
    AttemptAt mode file ver start v i l' s' := by
  have hcheckpoint : mode.checkpoint s'.1.state = some (offsetAt file start i) := by
    rw [hstate]
    exact h.checkpoint
  refine ⟨hle, hfwd, hcheckpoint, hstate ▸ h.cardinality, ?_⟩
  rw [hhistory, viewCheckpoint, hcheckpoint]
  exact h.recorded.append (Nat.le_refl _) (hb.offsetAt i)

/-- The command that stores the checkpoint of line `j`. -/
theorem AttemptAt.stored (h : AttemptAt mode file ver start v i j s) (hb : Boundary file start)
    (hj : 0 < j) (hfwd : s'.1.fwd = s.1.fwd)
    (hcheckpoint : mode.checkpoint s'.1.state = some (offsetAt file start j))
    (hcard : mode.cardinality s'.1.state = some (s.1.fwd ver).card)
    (hhistory : s'.2 = s.2 ++ [viewCheckpoint mode s'.1]) :
    AttemptAt mode file ver start v j j s' := by
  refine ⟨Nat.le_refl j, ?_, hcheckpoint, ?_, ?_⟩
  · rw [hfwd]
    exact h.fwd
  · rw [hcard, h.fwd, if_neg (Nat.ne_of_gt hj)]
  · rw [hhistory, viewCheckpoint, hcheckpoint]
    exact h.recorded.append (offsetAt_mono file start h.le) (hb.offsetAt j)

/-! ## One batch -/

section

variable (w : IdListSyncWorker) {origin : String → List UInt8} {id : ListId}

/-- Wherever an attempt is cut off. -/
def AttemptExit (mode : FileApplyMode) (file : List UInt8) (ver : String) (start : Nat)
    (v : ListView) (s : ListView × List Nat) : Prop :=
  ∃ i l, l ≤ (linesFrom file start).length ∧ AttemptAt mode file ver start v i l s

/-- The store on views, with the history of the checkpoint. -/
def recordedList (origin : String → List UInt8) (id : ListId) (mode : FileApplyMode) :
    Handler Cmd Cmd.Reply (ListView × List Nat) :=
  (listRedis origin id).recording (viewCheckpoint mode)

theorem recorded_write {wr : Write} (hw : wr.isHdelDict = false) {r : Unit}
    (hstep : (recordedList origin id mode).step s (.write wr) r s') :
    s'.1 = s.1.after id wr ∧ s'.2 = s.2 ++ [viewCheckpoint mode s'.1] := by
  obtain ⟨hv, hhistory⟩ := hstep
  refine ⟨?_, hhistory⟩
  change if wr.isHdelDict then _ else _ at hv
  simpa [hw] using hv

/-- One change of a delta, which takes the set from line `l` to line `l'`. -/
theorem wp_deltaChange_at {token : Nat} {c : FileChange} (hb : Boundary file start)
    (hll : l ≤ l') (hl' : l' ≤ (linesFrom file start).length)
    (hc : fwdAt v ver file start l' = FileChange.apply (fwdAt v ver file start l) c)
    (h : AttemptAt mode file ver start v i l s) :
    Wp (recordedList origin id mode) (w.deltaChange id ver token c)
      (fun _ => AttemptAt mode file ver start v i l') (AttemptExit mode file ver start v) s := by
  have hfwd : ∀ s, AttemptAt mode file ver start v i l s →
      Wp (recordedList origin id mode) (write (fwdWrite id ver c))
        (fun _ => AttemptAt mode file ver start v i l') (AttemptExit mode file ver start v) s := by
    intro s h
    refine Wp.cmd ⟨i, l, hll.trans hl', h⟩ ?_
    intro r s' hstep
    obtain ⟨hv, hhistory⟩ := recorded_write (fwdWrite_isHdelDict c) hstep
    rw [after_fwdWrite] at hv
    have h' : AttemptAt mode file ver start v i l' s' := by
      refine h.next hb (h.le.trans hll) ?_ (by rw [hv]; rfl) hhistory
      rw [hv, ListView.setFwd_fwd, Function.update_self, h.fwd, hc]
    exact ⟨⟨i, l', hl', h'⟩, h'⟩
  refine Wp.ite (fun _ => ?_) fun _ => hfwd s h
  refine Wp.cmdBind ⟨i, l, hll.trans hl', h⟩ ?_
  intro r s' hstep
  obtain ⟨hv, hhistory⟩ := recorded_write (memberWrite_isHdelDict _ _ _ _) hstep
  obtain ⟨hf, hs, _⟩ := after_memberWrite_frame id id.skh c.member token c.add s.1
  refine hfwd s' (h.next hb h.le ?_ (by rw [hv, hs]) hhistory)
  rw [hv, hf]
  exact h.fwd

/-- The changes of a delta batch, cut off anywhere. -/
theorem wp_deltaChanges_at {token : Nat} (hb : Boundary file start) (hij : i ≤ j)
    (hj : j ≤ (linesFrom file start).length) :
    ∀ (todo done : List FileChange), done ++ todo = changesBetween file start i j →
      ∀ (l : Nat) (s : ListView × List Nat), i ≤ l → l ≤ j →
      done = changesBetween file start i l →
      AttemptAt mode file ver start v i l s →
      Wp (recordedList origin id mode) (Prog.forEach (w.deltaChange id ver token) todo)
        (fun _ => AttemptAt mode file ver start v i j) (AttemptExit mode file ver start v) s
  | [], done, hall, l, s, hil, hlj, hdone, h => by
      have hend : AttemptAt mode file ver start v i j s := by
        refine ⟨hij, ?_, h.checkpoint, h.cardinality, h.recorded⟩
        rw [h.fwd, ← fwdAt_foldl v ver file start hil, ← fwdAt_foldl v ver file start hij, ← hall,
          List.append_nil, hdone]
      exact .pure ⟨i, j, hj, hend⟩ hend
  | c :: todo, done, hall, l, s, hil, hlj, hdone, h => by
      have hpre : done ++ [c] <+: changesBetween file start i j := by
        rw [← hall]
        exact ⟨todo, by simp⟩
      obtain ⟨l', hil', hlj', hl'⟩ := changesBetween_prefix hij hj hpre
      have hc : fwdAt v ver file start l' = FileChange.apply (fwdAt v ver file start l) c := by
        rw [← fwdAt_foldl v ver file start hil', ← fwdAt_foldl v ver file start hil, ← hl', ← hdone,
          List.foldl_append]
        rfl
      have hll : l ≤ l' := by
        by_contra hlt
        have hlonger : changesBetween file start i l' ++ changesBetween file start l' l =
            changesBetween file start i l := changesBetween_append hil' (Nat.le_of_not_le hlt)
        rw [← hl', ← hdone] at hlonger
        simpa using congrArg List.length hlonger
      refine Wp.seq (w.wp_deltaChange_at hb hll (hlj'.trans hj) hc h) ?_
      intro _ s' hs'
      exact wp_deltaChanges_at hb hij hj todo (done ++ [c]) (by simpa using hall) l' s' hil' hlj' hl'
        hs'

/-- The count and the checkpoint, after the changes of a batch. -/
theorem wp_storeCheckpoint (hb : Boundary file start) (hj : 0 < j)
    (hjl : j ≤ (linesFrom file start).length) {fields : Nat → List StateField}
    (hcheckpoint : ∀ n (h : StateHash),
      mode.checkpoint (h.setAll (fields n)) = some (offsetAt file start j))
    (hcard : ∀ n (h : StateHash), mode.cardinality (h.setAll (fields n)) = some n)
    (h : AttemptAt mode file ver start v i j s) :
    Wp (recordedList origin id mode) (do
        let cardinality ← scard id ver
        write (.hsetState id (fields cardinality)))
      (fun _ => AttemptAt mode file ver start v j j) (AttemptExit mode file ver start v) s := by
  refine Wp.cmdBind ⟨i, j, hjl, h⟩ ?_
  intro n s₁ hstep
  obtain ⟨⟨hn, hv⟩, hhistory⟩ := hstep
  have h₁ : AttemptAt mode file ver start v i j s₁ :=
    h.next hb h.le (by rw [hv]; exact h.fwd) (by rw [hv]) hhistory
  refine Wp.cmd ⟨i, j, hjl, h₁⟩ ?_
  intro r s₂ hstep
  obtain ⟨hv₂, hhistory₂⟩ := recorded_write rfl hstep
  rw [ListView.after_hsetState] at hv₂
  have h₂ : AttemptAt mode file ver start v j j s₂ := by
    refine h₁.stored hb hj (by rw [hv₂]; rfl) ?_ ?_ hhistory₂
    · rw [hv₂]
      exact hcheckpoint n _
    · rw [hv₂, hv, ← hn rfl]
      exact hcard n _
  exact ⟨⟨j, j, hjl, h₂⟩, h₂⟩

/-- A batch, in either mode. -/
theorem wp_batch_at {first : Bool} (hb : Boundary file start) (hij : i ≤ j) (hj : 0 < j)
    (hjl : j ≤ (linesFrom file start).length) (h : AttemptAt mode file ver start v i i s) :
    Wp (recordedList origin id mode)
      (w.applyFileBatch id ver mode (changesBetween file start i j) (offsetAt file start j) first)
      (fun _ => AttemptAt mode file ver start v j j) (AttemptExit mode file ver start v) s := by
  cases mode with
  | delta token =>
    have hnil : [] = changesBetween file start i i := (changesBetween_self file start i).symm
    refine Wp.seq (w.wp_deltaChanges_at hb hij hjl _ [] rfl i s (Nat.le_refl i) hij hnil h) ?_
    intro _ s' hs'
    exact wp_storeCheckpoint hb hj hjl (fun _ _ => rfl) (fun _ _ => rfl) hs'
  | load =>
    refine Wp.cmdBind ⟨i, i, hij.trans hjl, h⟩ ?_
    intro r s' hstep
    obtain ⟨hv, hhistory⟩ := hstep
    have hv := hv (loadBatch_isHdelDict _ _)
    rw [foldl_after_loadBatch, h.fwd, fwdAt_foldl v ver file start hij] at hv
    have h' : AttemptAt .load file ver start v i j s' := by
      refine h.next hb hij ?_ (by rw [hv]; rfl) hhistory
      rw [hv, ListView.setFwd_fwd, Function.update_self]
    exact wp_storeCheckpoint hb hj hjl (fun _ _ => rfl) (fun _ _ => rfl) h'

/-- One attempt, from the stored checkpoint on. -/
theorem wp_attempt {url : String} {fileSize : Nat} (hb : Boundary (origin url) start)
    (hstored : mode.checkpoint v.state = some start) {history : List Nat}
    (hrecorded : Recorded (origin url) start history) :
    Wp (recordedList origin id mode) (w.applyFileStream id ver url start fileSize mode)
      (fun r s' => AttemptAt mode (origin url) ver start v (linesFrom (origin url) start).length
          (linesFrom (origin url) start).length s' ∧
        r.checkpoint = offsetAt (origin url) start (linesFrom (origin url) start).length)
      (AttemptExit mode (origin url) ver start v) (v, history) := by
  have hspec : w.StreamSpec (recordedList origin id mode) id ver mode (origin url) start
      (fun i _ s => i ≤ (linesFrom (origin url) start).length ∧
        AttemptAt mode (origin url) ver start v i i s)
      (AttemptExit mode (origin url) ver start v) := by
    refine ⟨fun h => ⟨_, _, h.1, h.2⟩, ?_, ?_⟩
    · intro i first s r s' h hstep
      obtain ⟨hv, hhistory⟩ := hstep
      obtain hv : s'.1 = s.1 := hv
      exact ⟨h.1, h.2.next hb (Nat.le_refl i) (by rw [hv]; exact h.2.fwd) (by rw [hv]) hhistory⟩
    · intro i j first s hbatch h
      refine (w.wp_batch_at hb hbatch.1 hbatch.2.1 hbatch.2.2.1 h.2).mono ?_ fun _ h => h
      exact fun _ s' hs' => ⟨hbatch.2.2.1, hs'⟩
  have hstart : AttemptAt mode (origin url) ver start v 0 0 (v, history) := by
    refine ⟨Nat.le_refl 0, (fwdAt_zero v ver _ start).symm, ?_, rfl, ?_⟩
    · rw [offsetAt_zero]
      exact hstored
    · rw [offsetAt_zero]
      exact hrecorded
  refine (wp_fileStream hspec ?_ ⟨Nat.zero_le _, hstart⟩).mono ?_ fun _ h => h
  · intro s d s' h hstep
    obtain ⟨⟨hd, hv⟩, hhistory⟩ := hstep
    refine ⟨⟨h.1, h.2.next hb (Nat.le_refl 0) ?_ (by rw [hv]) hhistory⟩, hd⟩
    rw [hv]
    exact h.2.fwd
  · intro r s' hr
    obtain ⟨_, ⟨_, _, hs'⟩, hcp⟩ := hr
    exact ⟨hs', hcp⟩

end

/-! ## From attempt to attempt -/

/-- An offset behind which the file has no complete line. -/
theorem changes_take_last {c : Nat} (hb : Boundary file c) (h : linesFrom file c = []) :
    changes (file.take c) = changes file := by
  have hlast := changes_offsetAt_last hb
  rwa [h, List.length_nil, offsetAt_zero] at hlast

theorem linesFrom_grow {file file' : List UInt8} (hp : file <+: file') {c : Nat}
    (h : linesFrom file' c = []) : linesFrom file c = [] := by
  obtain ⟨tail, rfl⟩ := hp
  rw [linesFrom, List.drop_append, completeLines_append] at h
  exact (List.append_eq_nil_iff.mp h).1

/-- What holds between attempts that began at the checkpoint `c₀` with the
stored cardinality `card₀`. -/
structure Progress (mode : FileApplyMode) (ver : String) (c₀ : Nat) (card₀ : Option Nat)
    (file : List UInt8) (c : Nat) (v : ListView) (history : List Nat) : Prop where
  stored : mode.checkpoint v.state = some c
  le : c₀ ≤ c
  boundary : Boundary file c
  lag : Lag file c (v.fwd ver)
  unstored : c = c₀ → mode.cardinality v.state = card₀
  counted : c₀ < c → linesFrom file c = [] →
    mode.cardinality v.state = some (replay (changes (file.take c))).card
  recorded : Recorded file c history

variable {c₀ c : Nat} {card₀ : Option Nat} {history : List Nat}

theorem Progress.grow {file' : List UInt8} (h : Progress mode ver c₀ card₀ file c v history)
    (hp : file <+: file') : Progress mode ver c₀ card₀ file' c v history := by
  refine ⟨h.stored, h.le, h.boundary.mono hp, h.lag.grow hp, h.unstored, ?_, h.recorded.grow hp⟩
  intro hlt hlast
  have htake : file'.take c = file.take c := by
    obtain ⟨tail, rfl⟩ := hp
    exact List.take_append_of_le_length h.boundary.1
  rw [htake]
  exact h.counted hlt (linesFrom_grow hp hlast)

/-- However far an attempt gets. -/
theorem Progress.attempt (h : Progress mode ver c₀ card₀ file start v history)
    (hl : l ≤ (linesFrom file start).length) (hat : AttemptAt mode file ver start v i l s) :
    Progress mode ver c₀ card₀ file (offsetAt file start i) s.1 s.2 := by
  have hle : start ≤ offsetAt file start i := Nat.le_add_right _ _
  have hi : 0 < i → start < offsetAt file start i := fun hi => offsetAt_pos hi (hat.le.trans hl)
  refine ⟨hat.checkpoint, h.le.trans hle, h.boundary.offsetAt i, ?_, ?_, ?_, hat.recorded⟩
  · rw [hat.fwd]
    exact (h.lag.advance h.boundary l).anti (offsetAt_mono file start hat.le)
  · intro heq
    have hzero : i = 0 := by
      by_contra hne
      have := hi (Nat.pos_of_ne_zero hne)
      have := h.le
      omega
    subst hzero
    rw [offsetAt_zero] at heq
    rw [hat.cardinality, if_pos rfl]
    exact h.unstored heq
  · intro hlt hlast
    by_cases hzero : i = 0
    · subst hzero
      rw [offsetAt_zero] at hlt hlast ⊢
      rw [hat.cardinality, if_pos rfl]
      exact h.counted hlt hlast
    · rw [hat.cardinality, if_neg hzero]
      have hlag : Lag file (offsetAt file start i) (fwdAt v ver file start i) :=
        h.lag.advance h.boundary i
      rw [← hlag.eq_replay (changes_take_last (h.boundary.offsetAt i) hlast)]

/-- A completed attempt: the set is the replay, and it is counted. -/
theorem Progress.completed (h : Progress mode ver c₀ card₀ file start v history)
    (hat : AttemptAt mode file ver start v (linesFrom file start).length
      (linesFrom file start).length s) :
    s.1.fwd ver =
        replay (changes (file.take (offsetAt file start (linesFrom file start).length))) ∧
      (c₀ < offsetAt file start (linesFrom file start).length →
        mode.cardinality s.1.state = some (s.1.fwd ver).card) := by
  have hset : s.1.fwd ver =
      replay (changes (file.take (offsetAt file start (linesFrom file start).length))) :=
    (h.attempt (Nat.le_refl _) hat).lag.eq_replay (changes_offsetAt_last h.boundary)
  refine ⟨hset, fun hlt => ?_⟩
  by_cases hzero : (linesFrom file start).length = 0
  · rw [hset]
    rw [hzero, offsetAt_zero] at hlt ⊢
    rw [hat.cardinality, if_pos hzero]
    exact h.counted hlt (List.length_eq_zero_iff.mp hzero)
  · rw [hat.cardinality, if_neg hzero, hat.fwd]

/-! ## Runs of attempts -/

/-- The set an attempt starts from: a load starts with nothing, a delta at a
line end with the replay of the file up to it. -/
def StartsAt (id : ListId) (ver : String) (mode : FileApplyMode) (file : List UInt8) (c₀ : Nat)
    (db : Db) : Prop :=
  mode.checkpoint (db.state id) = some c₀ ∧
    match mode with
    | .load => c₀ = 0 ∧ (db.fwd id ver).members = ∅
    | .delta _ => Boundary file c₀ ∧
        (db.fwd id ver).members = replay (changes (file.take c₀))

/-- Any number of attempts on one version of a file, with the history of
the stored checkpoint. Each is made by some worker, starts at the stored
checkpoint and ends anywhere; the file has perhaps grown before it. Between
attempts anything may happen to the contents but to the set and to what is
stored about it. -/
inductive Attempts (id : ListId) (ver : String) (mode : FileApplyMode) (file₀ : List UInt8)
    (db₀ : Db) : List UInt8 → Db × List Nat → Prop where
  | start : Attempts id ver mode file₀ db₀ file₀ (db₀, [resumeAt id mode db₀])
  | attempt {file : List UInt8} {s s' : Db × List Nat} (w : IdListSyncWorker)
      (origin : String → List UInt8) (url : String) (fileSize : Nat)
      (o : Outcome WorkerError StreamApplyResult)
      (before : Attempts id ver mode file₀ db₀ file s) (grown : file <+: origin url)
      (run : Exec ((redis origin).recording (resumeAt id mode))
        (w.applyFileStream id ver url (resumeAt id mode s.1) fileSize mode) s s' o) :
      Attempts id ver mode file₀ db₀ (origin url) s'
  | between {file : List UInt8} {s : Db × List Nat} (db : Db)
      (before : Attempts id ver mode file₀ db₀ file s)
      (fwd : (db.fwd id ver).members = (s.1.fwd id ver).members)
      (checkpoint : mode.checkpoint (db.state id) = mode.checkpoint (s.1.state id))
      (cardinality : mode.cardinality (db.state id) = mode.cardinality (s.1.state id)) :
      Attempts id ver mode file₀ db₀ file (db, s.2)

section

variable {id : ListId} {origin : String → List UInt8} {url : String} {fileSize : Nat}
  {db₀ : Db} {file₀ : List UInt8}

/-- An attempt on the contents is an attempt on the view. -/
theorem wp_attempt_db (w : IdListSyncWorker) {t : Db × List Nat}
    (h : Progress mode ver c₀ card₀ (origin url) c (t.1.view id) t.2) :
    Wp ((redis origin).recording (resumeAt id mode))
      (w.applyFileStream id ver url c fileSize mode)
      (fun r t' => AttemptAt mode (origin url) ver c (t.1.view id)
          (linesFrom (origin url) c).length (linesFrom (origin url) c).length
          (t'.1.view id, t'.2) ∧
        r.checkpoint = offsetAt (origin url) c (linesFrom (origin url) c).length)
      (fun t' => AttemptExit mode (origin url) ver c (t.1.view id) (t'.1.view id, t'.2)) t :=
  Wp.simulateRecording (redis_step_view origin id)
    (w.wp_attempt h.boundary h.stored h.recorded)

theorem startsAt_progress (h : StartsAt id ver mode file₀ c₀ db₀) :
    Progress mode ver c₀ (mode.cardinality (db₀.state id)) file₀ c₀ (db₀.view id)
      [resumeAt id mode db₀] := by
  obtain ⟨hstored, hset⟩ := h
  have hplace : Boundary file₀ c₀ ∧
      (db₀.fwd id ver).members = replay (changes (file₀.take c₀)) := by
    cases mode with
    | load =>
      obtain ⟨rfl, hempty⟩ := hset
      refine ⟨boundary_zero file₀, hempty.trans ?_⟩
      simp [changes, completeLines, replay]
    | delta token => exact hset
  have hresume : resumeAt id mode db₀ = c₀ := by
    rw [resumeAt, hstored]
    rfl
  refine ⟨hstored, Nat.le_refl c₀, hplace.1, ?_, fun _ => rfl,
    fun hlt => absurd hlt (Nat.lt_irrefl c₀), ?_⟩
  · have hview : (db₀.view id).fwd ver = replay (changes (file₀.take c₀)) := hplace.2
    rw [hview]
    exact Lag.of_replay hplace.1.1
  · rw [hresume]
    refine ⟨rfl, by simp, ?_⟩
    intro x hx
    rw [List.mem_singleton.mp hx]
    exact hplace.1

/-- The run lemma. -/
theorem attempts_progress (hstart : StartsAt id ver mode file₀ c₀ db₀) {t : Db × List Nat}
    (h : Attempts id ver mode file₀ db₀ file t) :
    Progress mode ver c₀ (mode.cardinality (db₀.state id)) file (resumeAt id mode t.1)
      (t.1.view id) t.2 := by
  have hresume : ∀ {file c} {t : Db × List Nat},
      Progress mode ver c₀ (mode.cardinality (db₀.state id)) file c (t.1.view id) t.2 →
      resumeAt id mode t.1 = c := by
    intro file c t ht
    have hstored : mode.checkpoint (t.1.state id) = some c := ht.stored
    rw [resumeAt, hstored]
    rfl
  induction h with
  | start =>
    have hp := startsAt_progress hstart
    have hc : resumeAt id mode db₀ = c₀ := hresume (t := (db₀, [resumeAt id mode db₀])) hp
    simpa only [hc] using hp
  | @attempt file t t' w origin url fileSize o _ hgrown hrun ih =>
    have hp := ih.grow hgrown
    have hend := (wp_attempt_db w hp).always (fun _ _ hr => ⟨_, _, Nat.le_refl _, hr.1⟩) hrun
    obtain ⟨i, l, hl, hat⟩ := hend
    have hnext := hp.attempt hl hat
    rw [hresume (t := t') hnext]
    exact hnext
  | @between file t db _ hfwd hcheckpoint hcard ih =>
    have hsame : resumeAt id mode db = resumeAt id mode t.1 := by
      rw [resumeAt, resumeAt, hcheckpoint]
    have hset : (db.view id).fwd ver = (t.1.view id).fwd ver := hfwd
    rw [hsame]
    refine ⟨hcheckpoint.trans ih.stored, ih.le, ih.boundary, hset ▸ ih.lag, ?_, ?_, ih.recorded⟩
    · exact fun heq => hcard.trans (ih.unstored heq)
    · exact fun hlt hlast => hcard.trans (ih.counted hlt hlast)

/-- In every run of attempts the stored checkpoints are line ends and never
go down. When an attempt completes, the set holds the members whose last
line before the checkpoint is an addition, and the stored cardinality is
its size, once a checkpoint has been stored at all. -/
theorem attempts_replay_file (hstart : StartsAt id ver mode file₀ c₀ db₀) {t : Db × List Nat}
    (h : Attempts id ver mode file₀ db₀ file t) :
    (mode.checkpoint (t.1.state id) = t.2.getLast? ∧ t.2.Pairwise (· ≤ ·) ∧
        ∀ c ∈ t.2, Boundary file c) ∧
      ∀ (w : IdListSyncWorker) origin url fileSize t' r, file <+: origin url →
        Exec ((redis origin).recording (resumeAt id mode))
          (w.applyFileStream id ver url (resumeAt id mode t.1) fileSize mode) t t' (.ok r) →
        (∀ m, m ∈ (t'.1.fwd id ver).members ↔
          lastSign m (changes ((origin url).take (resumeAt id mode t'.1))) = some true) ∧
        (c₀ < resumeAt id mode t'.1 →
          mode.cardinality (t'.1.state id) = some (t'.1.fwd id ver).members.card) ∧
        (resumeAt id mode t'.1 = c₀ →
          mode.cardinality (t'.1.state id) = mode.cardinality (db₀.state id)) := by
  have hp := attempts_progress hstart h
  refine ⟨⟨?_, hp.recorded.sorted, hp.recorded.boundary⟩, ?_⟩
  · rw [hp.recorded.last]
    exact hp.stored
  intro w origin url fileSize t' r hgrown hrun
  have hgrow := hp.grow hgrown
  obtain ⟨hat, _⟩ := (wp_attempt_db w hgrow).ok hrun
  obtain ⟨hset, hcount⟩ := hgrow.completed hat
  have hcheckpoint : resumeAt id mode t'.1 =
      offsetAt (origin url) (resumeAt id mode t.1)
        (linesFrom (origin url) (resumeAt id mode t.1)).length := by
    have hstored := hat.checkpoint
    show (mode.checkpoint (t'.1.state id)).getD 0 = _
    rw [show mode.checkpoint (t'.1.state id) = _ from hstored]
    rfl
  rw [hcheckpoint]
  refine ⟨?_, hcount, (hgrow.attempt (Nat.le_refl _) hat).unstored⟩
  intro m
  have hmembers : (t'.1.fwd id ver).members = _ := hset
  rw [hmembers, mem_replay_iff]

end

/-- A load that `initialize_load` has begun. -/
def begunLoad : Db :=
  Db.setState {} smallList { loadingVersion := some "v", loadingSize := some 0 }

/-- The first attempt is cut off after its first batch, which has added `a`
and `b` and is not checkpointed. -/
def cutOffLoad : Db × List Nat :=
  ((scripted fun _ => [43, 97, 10, 43, 98, 10]).recording (resumeAt smallList .load)).after 3
    ((smallWorker true).applyFileStream smallList "v" "u" 0 6 .load) (begunLoad, [0])
    [.body ⟨[[43, 97, 10, 43, 98, 10]], none⟩]

/-- The second finds one more line, which takes `a` away again. -/
def completedLoad : Db × List Nat :=
  ((scripted fun _ => [43, 97, 10, 43, 98, 10, 45, 97, 10]).recording
      (resumeAt smallList .load)).after 20
    ((smallWorker true).applyFileStream smallList "v" "u" 0 9 .load) cutOffLoad
    [.body ⟨[[43, 97, 10, 43], [98, 10, 45, 97, 10]], none⟩]

/-- The set is right although `b` was added twice and `a` was there before
its checkpoint. -/
theorem completed_load_replays :
    completedLoad.2 = [0, 0, 0, 0, 0, 0, 0, 0, 0, 6, 6, 6, 9] ∧
      (∀ m, m ∈ (completedLoad.1.fwd smallList "v").members ↔ lastSign m
        (changes ([43, 97, 10, 43, 98, 10, 45, 97, 10].take
          (resumeAt smallList .load completedLoad.1))) = some true) ∧
      FileApplyMode.load.cardinality (completedLoad.1.state smallList) =
        some (completedLoad.1.fwd smallList "v").members.card := by
  have hcut : Exec ((redis fun _ => [43, 97, 10, 43, 98, 10]).recording (resumeAt smallList .load))
      ((smallWorker true).applyFileStream smallList "v" "u" 0 6 .load) (begunLoad, [0])
      cutOffLoad .stopped :=
    ((scripted fun _ => [43, 97, 10, 43, 98, 10]).recording (resumeAt smallList .load)).after_sound
      (by decide +kernel)
  have hdone : Exec ((redis fun _ => [43, 97, 10, 43, 98, 10, 45, 97, 10]).recording
        (resumeAt smallList .load))
      ((smallWorker true).applyFileStream smallList "v" "u" 0 9 .load) cutOffLoad
      completedLoad (.ok ⟨3, 9, false⟩) :=
    ((scripted fun _ => [43, 97, 10, 43, 98, 10, 45, 97, 10]).recording
      (resumeAt smallList .load)).after_sound (by decide +kernel)
  have hruns : Attempts smallList "v" .load [] begunLoad [43, 97, 10, 43, 98, 10] cutOffLoad :=
    .attempt (smallWorker true) (fun _ => [43, 97, 10, 43, 98, 10]) "u" 6 .stopped .start
      List.nil_prefix hcut
  have hstart : StartsAt smallList "v" .load [] 0 begunLoad := ⟨rfl, rfl, rfl⟩
  have hall := (attempts_replay_file hstart hruns).2 (smallWorker true)
    (fun _ => [43, 97, 10, 43, 98, 10, 45, 97, 10]) "u" 9 completedLoad _ (by decide) hdone
  exact ⟨by decide +kernel, hall.1, hall.2.1 (by decide +kernel)⟩

/-- A load of a file without a complete line completes, and no cardinality is
stored. -/
def linelessLoad : Db × List Nat :=
  ((scripted fun _ => [43, 97]).recording (resumeAt smallList .load)).after 20
    ((smallWorker true).applyFileStream smallList "v" "u" 0 2 .load) (begunLoad, [0])
    [.body ⟨[[43, 97]], none⟩]

theorem lineless_load_uncounted : StartsAt smallList "v" .load [43, 97] 0 begunLoad ∧
    Attempts smallList "v" .load [43, 97] begunLoad [43, 97] (begunLoad, [0]) ∧
    Exec ((redis fun _ => [43, 97]).recording (resumeAt smallList .load))
      ((smallWorker true).applyFileStream smallList "v" "u" 0 2 .load) (begunLoad, [0])
      linelessLoad (.ok ⟨0, 0, true⟩) ∧
    FileApplyMode.load.cardinality (linelessLoad.1.state smallList) ≠
      some (linelessLoad.1.fwd smallList "v").members.card := by
  refine ⟨⟨rfl, rfl, rfl⟩, .start, ?_, by decide +kernel⟩
  exact ((scripted fun _ => [43, 97]).recording (resumeAt smallList .load)).after_sound
    (by decide +kernel)

end IdListSyncWorker

end ForwardProxy.IdList
