/-
ForwardProxy.IdList.PendingTtlTheorems — when a pending forward set keeps
its TTL.

A load installs the TTL with the first batch that has an addition, and
with no later one. Redis drops a set with its last member, TTL included,
so a later batch that finds the set empty, or empties it, and leaves a
member has created a set without TTL. Which batches a load sends depends
on the file and on the batch size only, not on the chunks of the download:
they are the `chunks` of its changes. `neverRecreated` is the condition
on them, and `batchesFwd` are the sets they leave. A run is at every
moment at one of these sets, and some run passes through all of them.
-/
import Mathlib.Data.List.Infix
import ForwardProxy.Effect.Recording
import ForwardProxy.Effect.Returns
import ForwardProxy.IdList.Script
import ForwardProxy.IdList.DecoderTheorems
import ForwardProxy.IdList.FileStreamTheorems

namespace ForwardProxy.IdList

open Effect

/-! ## Batches -/

theorem chunksGo_full {α : Type} {n : Nat} : ∀ (xs acc rest : List α), xs ≠ [] →
    acc.length + xs.length = n → chunksGo n acc (xs ++ rest) = (acc ++ xs) :: chunksGo n [] rest
  | [], _, _, hne, _ => absurd rfl hne
  | [x], acc, rest, _, hlen => by
      rw [List.singleton_append, chunksGo, if_pos]
      simpa using Nat.le_of_eq hlen.symm
  | x :: y :: xs, acc, rest, _, hlen => by
      simp only [List.length_cons] at hlen
      rw [List.cons_append, chunksGo, if_neg (by simp; omega)]
      have hrest := chunksGo_full (n := n) (y :: xs) (acc ++ [x]) rest (by simp) (by simp; omega)
      rw [hrest]
      simp

theorem chunksGo_short {α : Type} {n : Nat} : ∀ (xs acc : List α), acc.length + xs.length < n →
    chunksGo n acc xs = if (acc ++ xs).isEmpty then [] else [acc ++ xs]
  | [], acc, _ => by
      rw [chunksGo, List.append_nil]
  | x :: xs, acc, hlen => by
      rw [List.length_cons] at hlen
      rw [chunksGo, if_neg (by simp; omega), chunksGo_short xs (acc ++ [x]) (by simp; omega)]
      simp

theorem chunks_full {α : Type} {n : Nat} (hn : 0 < n) {batch : List α} (h : batch.length = n)
    (rest : List α) : chunks n (batch ++ rest) = batch :: chunks n rest := by
  have hne : batch ≠ [] := by
    intro hnil
    rw [hnil, List.length_nil] at h
    omega
  exact chunksGo_full batch [] rest hne (by simpa using h)

theorem chunks_short {α : Type} {n : Nat} {batch : List α} (h : batch.length < n) :
    chunks n batch = if batch.isEmpty then [] else [batch] :=
  chunksGo_short batch [] (by simpa using h)

namespace IdListSyncWorker

/-- The batch finds the set empty or empties it, and leaves a member. -/
def recreates (s : Finset String) (batch : List FileChange) : Bool :=
  (batch.inits.any fun done => decide (done.foldl FileChange.apply s = ∅)) &&
    decide (batch.foldl FileChange.apply s ≠ ∅)

/-- No batch after the first one with an addition recreates the set `s`. -/
def neverRecreated : Finset String → Bool → List (List FileChange) → Bool
  | _, _, [] => true
  | s, first, batch :: batches =>
    (first || !recreates s batch) &&
      neverRecreated (batch.foldl FileChange.apply s) (stillFirst .load first batch) batches

/-! ## One batch -/

/-- The forward-set command of a change, on the set alone. -/
def changeFwd (f : FwdSet) (c : FileChange) : FwdSet :=
  if c.add then f.sadd c.member else f.srem c.member

theorem changeFwd_members (f : FwdSet) (c : FileChange) :
    (changeFwd f c).members = FileChange.apply f.members c := by
  unfold changeFwd FileChange.apply
  split
  · rfl
  · exact srem_members f c.member

theorem foldl_changeFwd_members : ∀ (cs : List FileChange) (f : FwdSet),
    (cs.foldl changeFwd f).members = cs.foldl FileChange.apply f.members
  | [], _ => rfl
  | c :: cs, f => by
      rw [List.foldl_cons, List.foldl_cons, foldl_changeFwd_members cs, changeFwd_members]

/-- A change that leaves a member keeps the TTL. -/
theorem changeFwd_ttl {f : FwdSet} {c : FileChange} (h : FileChange.apply f.members c ≠ ∅) :
    (changeFwd f c).ttl = f.ttl := by
  rw [← changeFwd_members] at h
  unfold changeFwd at h ⊢
  split
  · rfl
  · rename_i hadd
    rw [if_neg hadd] at h
    unfold FwdSet.srem at h ⊢
    split
    · rename_i hempty
      simp [hempty] at h
    · rfl

/-- Changes between which the set is never empty keep the TTL. -/
theorem foldl_changeFwd_ttl : ∀ (cs : List FileChange) (f : FwdSet),
    (∀ done, done <+: cs → done.foldl FileChange.apply f.members ≠ ∅) →
    (cs.foldl changeFwd f).ttl = f.ttl
  | [], _, _ => rfl
  | c :: cs, f, h => by
      rw [List.foldl_cons, foldl_changeFwd_ttl cs (changeFwd f c), changeFwd_ttl]
      · exact h [c] ⟨cs, rfl⟩
      · intro done hdone
        rw [changeFwd_members]
        exact h (c :: done) (List.cons_prefix_cons.mpr ⟨rfl, hdone⟩)

/-- Removals alone do not make a member. -/
theorem foldl_apply_removals : ∀ (cs : List FileChange) (s : Finset String),
    cs.any (·.add) = false → cs.foldl FileChange.apply s ⊆ s
  | [], s, _ => subset_rfl
  | c :: cs, s, h => by
      rw [List.any_cons, Bool.or_eq_false_iff] at h
      have hrest := foldl_apply_removals cs (FileChange.apply s c) h.2
      refine hrest.trans ?_
      rw [FileChange.apply, if_neg (by simp [h.1])]
      exact Finset.erase_subset _ _

/-- A pending set that exists has a TTL. -/
def TtlOk (f : FwdSet) : Prop := f.members ≠ ∅ → f.ttl = true

/-- What the MULTI/EXEC of a load batch does to the pending set. -/
def batchFwd (first : Bool) (f : FwdSet) (batch : List FileChange) : FwdSet :=
  if first && batch.any (·.add) then (batch.foldl changeFwd f).expire
  else batch.foldl changeFwd f

theorem batchFwd_members (first : Bool) (f : FwdSet) (batch : List FileChange) :
    (batchFwd first f batch).members = batch.foldl FileChange.apply f.members := by
  unfold batchFwd
  split
  · rw [expire_members, foldl_changeFwd_members]
  · rw [foldl_changeFwd_members]

/-- A batch that does not recreate the set keeps the TTL, and so does one
that ends with EXPIRE. -/
theorem ttlOk_batch {f : FwdSet} (h : TtlOk f) {batch : List FileChange} {first : Bool}
    (hkept : (first || !recreates f.members batch) = true) : TtlOk (batchFwd first f batch) := by
  unfold batchFwd
  split
  · exact expire_ttl _
  rename_i hbare
  intro hmembers
  rw [foldl_changeFwd_members] at hmembers
  have hnonempty : ∀ done, done <+: batch → done.foldl FileChange.apply f.members ≠ ∅ := by
    intro done hdone hempty
    cases first with
    | true =>
      -- Only removals: what is empty stays empty.
      have hadd : batch.any (·.add) = false := by simpa using hbare
      obtain ⟨rest, rfl⟩ := hdone
      rw [List.any_append, Bool.or_eq_false_iff] at hadd
      have hsub := foldl_apply_removals rest (done.foldl FileChange.apply f.members) hadd.2
      rw [List.foldl_append] at hmembers
      rw [hempty] at hsub hmembers
      exact hmembers (Finset.subset_empty.mp hsub)
    | false =>
      have hrecreates : recreates f.members batch = true := by
        simp only [recreates, Bool.and_eq_true, List.any_eq_true, decide_eq_true_eq]
        exact ⟨⟨done, (List.mem_inits _ _).mpr hdone, hempty⟩, hmembers⟩
      simp [hrecreates] at hkept
  rw [foldl_changeFwd_ttl batch f hnonempty]
  exact h (hnonempty [] List.nil_prefix)

/-- A missing key has no TTL. -/
def FwdOk (f : FwdSet) : Prop := f.members = ∅ → f.ttl = false

theorem changeFwd_ok (f : FwdSet) (c : FileChange) : FwdOk (changeFwd f c) := by
  unfold changeFwd FwdSet.sadd FwdSet.srem
  split
  · exact fun hempty => absurd hempty (Finset.insert_ne_empty _ _)
  · split
    · exact fun _ => rfl
    · rename_i hne
      exact fun hempty => absurd hempty hne

theorem foldl_changeFwd_ok : ∀ (cs : List FileChange) {f : FwdSet}, FwdOk f →
    FwdOk (cs.foldl changeFwd f)
  | [], _, h => h
  | c :: cs, f, _ => foldl_changeFwd_ok cs (changeFwd_ok f c)

theorem batchFwd_ok (first : Bool) {f : FwdSet} (h : FwdOk f) (batch : List FileChange) :
    FwdOk (batchFwd first f batch) := by
  have hchanged := foldl_changeFwd_ok batch h
  unfold batchFwd
  split
  · unfold FwdSet.expire
    split
    · exact hchanged
    · rename_i hne
      exact fun hempty => absurd hempty hne
  · exact hchanged

/-- No change installs a TTL. -/
theorem changeFwd_bare {f : FwdSet} (h : f.ttl = false) (c : FileChange) :
    (changeFwd f c).ttl = false := by
  unfold changeFwd FwdSet.sadd FwdSet.srem
  split
  · exact h
  · split
    · rfl
    · exact h

theorem foldl_changeFwd_bare : ∀ (cs : List FileChange) {f : FwdSet}, f.ttl = false →
    (cs.foldl changeFwd f).ttl = false
  | [], _, h => h
  | c :: cs, _, h => foldl_changeFwd_bare cs (changeFwd_bare h c)

/-- A batch without EXPIRE that recreates the set leaves it without TTL. -/
theorem not_ttlOk_of_recreates {f : FwdSet} (h : FwdOk f) {batch : List FileChange}
    (hrecreates : recreates f.members batch = true) : ¬ TtlOk (batchFwd false f batch) := by
  simp only [recreates, Bool.and_eq_true, List.any_eq_true, decide_eq_true_eq] at hrecreates
  obtain ⟨⟨done, hdone, hempty⟩, hmembers⟩ := hrecreates
  obtain ⟨rest, rfl⟩ := (List.mem_inits _ _).mp hdone
  intro httl
  have hbare : (batchFwd false f (done ++ rest)).ttl = false := by
    have hgone : FwdOk (done.foldl changeFwd f) := foldl_changeFwd_ok done h
    have hlost := hgone (by rw [foldl_changeFwd_members]; exact hempty)
    show ((done ++ rest).foldl changeFwd f).ttl = false
    rw [List.foldl_append]
    exact foldl_changeFwd_bare rest hlost
  rw [httl (by rw [batchFwd_members]; exact hmembers)] at hbare
  simp at hbare

/-- The sets after each of some batches. -/
def batchesFwd : FwdSet → Bool → List (List FileChange) → List FwdSet
  | _, _, [] => []
  | f, first, batch :: batches =>
    batchFwd first f batch ::
      batchesFwd (batchFwd first f batch) (stillFirst .load first batch) batches

theorem ttlOk_batches_iff : ∀ (batches : List (List FileChange)) {f : FwdSet} {first : Bool},
    FwdOk f → TtlOk f →
    ((∀ g ∈ batchesFwd f first batches, TtlOk g) ↔
      neverRecreated f.members first batches = true)
  | [], _, _, _, _ => by simp [batchesFwd, neverRecreated]
  | batch :: batches, f, first, hok, httl => by
      have hhead : TtlOk (batchFwd first f batch) ↔
          (first || !recreates f.members batch) = true := by
        refine ⟨fun hbatch => ?_, ttlOk_batch httl⟩
        cases first with
        | true => rfl
        | false =>
          cases hrecreates : recreates f.members batch with
          | false => rfl
          | true => exact absurd hbatch (not_ttlOk_of_recreates hok hrecreates)
      rw [batchesFwd, List.forall_mem_cons, neverRecreated, Bool.and_eq_true, hhead]
      refine and_congr_right fun hkept => ?_
      rw [← batchFwd_members first]
      exact ttlOk_batches_iff batches (batchFwd_ok first hok batch) (hhead.mpr hkept)

/-! ## Batches on the contents -/

theorem apply_fwdWrite (id : ListId) (ver : String) (c : FileChange) (db : Db) :
    (fwdWrite id ver c).apply db = db.setFwd id ver (changeFwd (db.fwd id ver) c) := by
  unfold fwdWrite changeFwd
  split <;> rfl

theorem foldl_fwdWrite (id : ListId) (ver : String) : ∀ (cs : List FileChange) (db : Db),
    (cs.map (fwdWrite id ver)).foldl Write.apply db =
      db.setFwd id ver (cs.foldl changeFwd (db.fwd id ver))
  | [], db => by simp [Db.setFwd]
  | c :: cs, db => by
      rw [List.map_cons, List.foldl_cons, apply_fwdWrite, foldl_fwdWrite id ver cs]
      simp [Db.setFwd]

/-- The MULTI/EXEC of a load batch. -/
theorem foldl_loadBatch (id : ListId) (ver : String) (batch : List FileChange) (first : Bool)
    (db : Db) : (loadBatch id ver batch first).foldl Write.apply db =
      db.setFwd id ver (batchFwd first (db.fwd id ver) batch) := by
  unfold loadBatch batchFwd
  rw [List.foldl_append, foldl_fwdWrite]
  split
  · simp [Write.apply, Db.setFwd]
  · rfl

/-! ## Where a load can be -/

section

variable (w : IdListSyncWorker) {origin : String → List UInt8} {id : ListId} {ver url : String}
  {file : List UInt8} {start fileSize i j : Nat} {first : Bool}

/-- The batches left after `i` lines. -/
def batchesFrom (file : List UInt8) (start i : Nat) : List (List FileChange) :=
  chunks w.config.pipelineBatchSize
    (changesBetween file start i (linesFrom file start).length)

/-- The sets still to come after `i` lines. -/
def setsFrom (file : List UInt8) (start i : Nat) (first : Bool) (f : FwdSet) : List FwdSet :=
  batchesFwd f first (w.batchesFrom file start i)

/-- A batch is the next of those left, or it is empty and the last. -/
theorem setsFrom_batch (hbatch : w.BatchOf file start i j) (first : Bool) (f : FwdSet) :
    let g := batchFwd first f (changesBetween file start i j)
    let rest := w.setsFrom file start j (stillFirst .load first (changesBetween file start i j)) g
    w.setsFrom file start i first f = g :: rest ∨
      w.setsFrom file start i first f = rest ∧ g = f := by
  obtain ⟨hij, _, hjl, hsize⟩ := hbatch
  unfold setsFrom batchesFrom
  rw [← changesBetween_append hij hjl]
  rcases hsize with hfull | ⟨hshort, hlast⟩
  · rw [chunks_full w.config.pipelineBatchSize_pos hfull]
    exact .inl rfl
  · rw [← hlast, changesBetween_self, List.append_nil, chunks_short hshort]
    split
    · rename_i hempty
      rw [List.isEmpty_iff.mp hempty]
      exact .inr ⟨rfl, by simp [batchFwd]⟩
    · exact .inl rfl

/-- A load after `i` lines, with the sets it has been at: it is at one of
the sets of the load, and so are those to come; the others it has passed. -/
structure LoadAt (file : List UInt8) (id : ListId) (ver : String) (start : Nat) (f₀ : FwdSet)
    (i : Nat) (first : Bool) (s : Db × List FwdSet) : Prop where
  current : s.1.fwd id ver ∈ f₀ :: w.setsFrom file start 0 true f₀
  coming : ∀ g ∈ w.setsFrom file start i first (s.1.fwd id ver),
    g ∈ w.setsFrom file start 0 true f₀
  passed : ∀ g ∈ w.setsFrom file start 0 true f₀,
    g ∈ s.2 ∨ g ∈ w.setsFrom file start i first (s.1.fwd id ver)

variable {w} {f₀ : FwdSet} {s s' : Db × List FwdSet}

/-- A command that leaves the forward sets alone. -/
theorem LoadAt.read (h : w.LoadAt file id ver start f₀ i first s) (hfwd : s'.1.fwd = s.1.fwd)
    (hhistory : s'.2 = s.2 ++ [s'.1.fwd id ver]) : w.LoadAt file id ver start f₀ i first s' := by
  refine ⟨?_, ?_, ?_⟩
  · rw [hfwd]
    exact h.current
  · rw [hfwd]
    exact h.coming
  · intro g hg
    rw [hhistory, hfwd]
    exact (h.passed g hg).imp_left fun hin => List.mem_append_left _ hin

/-- The MULTI/EXEC of a batch. -/
theorem LoadAt.batch (hbatch : w.BatchOf file start i j)
    (h : w.LoadAt file id ver start f₀ i first s)
    (hfwd : s'.1.fwd id ver = batchFwd first (s.1.fwd id ver) (changesBetween file start i j))
    (hhistory : s'.2 = s.2 ++ [s'.1.fwd id ver]) :
    w.LoadAt file id ver start f₀ j (stillFirst .load first (changesBetween file start i j)) s' := by
  have hsets := w.setsFrom_batch hbatch first (s.1.fwd id ver)
  simp only at hsets
  rw [← hfwd] at hsets
  have hkept : ∀ g, g ∈ s.2 → g ∈ s'.2 := by
    intro g hg
    rw [hhistory]
    exact List.mem_append_left _ hg
  rcases hsets with hsets | ⟨hsets, hsame⟩
  · have hcoming := h.coming
    have hpassed := h.passed
    rw [hsets] at hcoming hpassed
    refine ⟨List.mem_cons_of_mem _ (hcoming _ List.mem_cons_self), ?_, ?_⟩
    · exact fun g hg => hcoming g (List.mem_cons_of_mem _ hg)
    · intro g hg
      rcases hpassed g hg with hin | hnext
      · exact .inl (hkept g hin)
      · rcases List.mem_cons.mp hnext with rfl | hnext
        · left
          rw [hhistory]
          simp
        · exact .inr hnext
  · refine ⟨hsame ▸ h.current, ?_, ?_⟩
    · rw [← hsets]
      exact h.coming
    · intro g hg
      rw [← hsets]
      exact (h.passed g hg).imp_left (hkept g)

/-- Every run of a load is at one of its sets, and one that returns has
passed them all. -/
theorem wp_loadSets (w : IdListSyncWorker) {db : Db} :
    Wp ((redis origin).recording fun db => db.fwd id ver)
      (w.applyFileStream id ver url start fileSize .load)
      (fun _ s => s.1.fwd id ver ∈ db.fwd id ver ::
          w.setsFrom (origin url) start 0 true (db.fwd id ver) ∧
        ∀ g ∈ w.setsFrom (origin url) start 0 true (db.fwd id ver), g ∈ s.2)
      (fun s => s.1.fwd id ver ∈ db.fwd id ver ::
        w.setsFrom (origin url) start 0 true (db.fwd id ver)) (db, []) := by
  have hspec : w.StreamSpec ((redis origin).recording fun db => db.fwd id ver) id ver .load
      (origin url) start (w.LoadAt (origin url) id ver start (db.fwd id ver))
      (fun s => s.1.fwd id ver ∈ db.fwd id ver ::
        w.setsFrom (origin url) start 0 true (db.fwd id ver)) := by
    refine ⟨fun h => h.current, ?_, ?_⟩
    · intro i first s r s' h hstep
      obtain hdb : s'.1 = s.1 := hstep.1
      exact h.read (by rw [hdb]) hstep.2
    · intro i j first s hbatch h
      refine Wp.cmdBind h.current ?_
      intro r s₁ hstep
      obtain hdb : s₁.1 = _ := hstep.1
      have h₁ := h.batch hbatch (by rw [hdb, foldl_loadBatch]; simp) hstep.2
      refine Wp.cmdBind h₁.current ?_
      intro n s₂ hstep
      have h₂ := h₁.read (by rw [hstep.1.2]) hstep.2
      refine Wp.cmd h₂.current ?_
      intro r s₃ hstep
      obtain hdb : s₃.1 = _ := hstep.1
      have h₃ := h₂.read (by rw [hdb]; rfl) hstep.2
      exact ⟨h₃.current, h₃⟩
  have hinit : w.LoadAt (origin url) id ver start (db.fwd id ver) 0 true (db, []) :=
    ⟨List.mem_cons_self, fun g hg => hg, fun g hg => .inr hg⟩
  refine (wp_fileStream hspec ?_ hinit).mono ?_ fun _ h => h
  · intro s d s' h hstep
    obtain ⟨⟨hd, hdb⟩, hhistory⟩ := hstep
    exact ⟨h.read (by rw [hdb]) hhistory, hd⟩
  · intro r s hr
    obtain ⟨_, ⟨_, h⟩, _⟩ := hr
    refine ⟨h.current, fun g hg => (h.passed g hg).resolve_right ?_⟩
    have hnone : w.batchesFrom (origin url) start (linesFrom (origin url) start).length = [] := by
      simp [batchesFrom, chunks, chunksGo]
    rw [setsFrom, hnone]
    exact List.not_mem_nil

/-! ## A load that goes through -/

/-- The claim is held and a download comes in one piece. -/
def Cmd.Prompt (origin : String → List UInt8) : (c : Cmd) → c.Reply → Prop
  | .held, r => r = true
  | .fetch url start _, r => r = ⟨[(origin url).drop start], none⟩
  | _, _ => True

/-- The store in which nothing goes wrong. -/
def promptRedis (origin : String → List UInt8) : Handler Cmd Cmd.Reply Db where
  step db c r db' := (redis origin).step db c r db' ∧ Cmd.Prompt origin c r

theorem returns_loadBatch (batch : List FileChange) (checkpoint : Nat) (first : Bool) (db : Db) :
    Returns (promptRedis origin) (w.applyFileBatch id ver .load batch checkpoint first)
      (fun _ _ => True) db := by
  refine .cmdBind ⟨(), _, rfl, trivial⟩ fun _ db₁ _ => ?_
  refine .cmdBind ⟨_, db₁, ⟨rfl, rfl⟩, trivial⟩ fun n db₂ _ => ?_
  exact ⟨⟨(), _, rfl, trivial⟩, fun _ _ _ => trivial⟩

theorem wellFormedLine_of_isOk {line : List UInt8} (h : (decodeChange line).isOk = true) :
    WellFormedLine line := by
  rw [← decodeChange_ok_iff]
  cases hline : decodeChange line with
  | ok change => exact ⟨change, rfl⟩
  | error e => simp [hline, Except.isOk, Except.toBool] at h

theorem returns_load (w : IdListSyncWorker) (hlen : start ≤ (origin url).length)
    (hlines : ∀ line ∈ linesFrom (origin url) start, (decodeChange line).isOk = true)
    (db : Db) :
    Returns (promptRedis origin) (w.applyFileStream id ver url start fileSize .load)
      (fun _ _ => True) db := by
  have hdelivers : Delivers (origin url) start ⟨[(origin url).drop start], none⟩ :=
    ⟨hlen, by simp⟩
  refine .cmdBind ⟨_, db, ⟨hdelivers, rfl⟩, rfl⟩ ?_
  intro d db₁ hstep
  obtain ⟨_, rfl⟩ := hstep
  refine .seq (P := fun _ _ => True) ?_ fun st db₂ _ => ?_
  · refine .seq (P := fun _ _ => True) ?_ fun _ _ _ => trivial
    refine .seq (P := fun _ _ => True) ?_ fun _ db₃ _ => ?_
    · refine .cmdBind ⟨true, db₁, rfl, rfl⟩ fun r db₃ hstep => ?_
      exact .ite (fun _ => trivial) fun hlost => absurd hstep.2 hlost
    · obtain ⟨decoded, hdecoded⟩ := (decodeLines_ok_iff _ start).mpr fun line hline =>
        wellFormedLine_of_isOk (hlines line hline)
      have hpush : (CompleteLineDecoder.new start).push ((origin url).drop start) =
          .ok (decoded, ⟨(completeLines ((origin url).drop start)).2, start +
            CompleteLineDecoder.consumed (completeLines ((origin url).drop start)).1⟩) := by
        unfold CompleteLineDecoder.push
        simp only [CompleteLineDecoder.new, List.nil_append]
        rw [show decodeLines start (completeLines ((origin url).drop start)).1 = _ from hdecoded]
      simp only [hpush]
      refine Returns.fold (I := fun _ _ _ => True) ?_ decoded [] _ db₃ trivial
      intro done st line db _
      refine .ite (fun _ => ?_) fun _ => trivial
      exact .seq (returns_loadBatch _ _ _ db) fun _ _ _ => trivial
  · refine .seq (P := fun _ _ => True) ?_ fun _ _ _ => trivial
    exact .when (fun _ => returns_loadBatch _ _ _ db₂) trivial

/-- For a well-formed file: at every moment of every load the pending set,
if it exists, has a TTL, exactly when no batch after the first one with an
addition recreates it. -/
theorem pending_set_has_ttl_iff (w : IdListSyncWorker) (origin : String → List UInt8) (id : ListId)
    (ver url : String) (start fileSize : Nat) (db : Db)
    (hlines : ∀ line ∈ linesFrom (origin url) start, (decodeChange line).isOk = true)
    (hstart : db.fwd id ver = {} ∨
      (db.fwd id ver).members ≠ ∅ ∧ (db.fwd id ver).ttl = true) :
    (∀ db' o, Exec (redis origin) (w.applyFileStream id ver url start fileSize .load) db db' o →
        (db'.fwd id ver).members ≠ ∅ → (db'.fwd id ver).ttl = true) ↔
      neverRecreated (db.fwd id ver).members true (chunks w.config.pipelineBatchSize
        ((linesFrom (origin url) start).filterMap lineChange)) = true := by
  have hok : FwdOk (db.fwd id ver) := by
    rcases hstart with habsent | ⟨hne, _⟩
    · rw [habsent]
      exact fun _ => rfl
    · exact fun hempty => absurd hempty hne
  have httl : TtlOk (db.fwd id ver) := by
    rcases hstart with habsent | ⟨_, httl⟩
    · rw [habsent]
      exact fun hne => absurd rfl hne
    · exact fun _ => httl
  have hbatches : chunks w.config.pipelineBatchSize
      ((linesFrom (origin url) start).filterMap lineChange) =
      w.batchesFrom (origin url) start 0 := by
    unfold batchesFrom changesBetween
    rw [List.drop_zero, List.take_length]
  rw [hbatches, ← ttlOk_batches_iff _ hok httl]
  constructor
  · intro hall g hg
    have hlen : start ≤ (origin url).length := by
      -- Behind the end of the file there is no batch.
      by_contra hbehind
      have hnone : w.batchesFrom (origin url) start 0 = [] := by
        rw [← hbatches, linesFrom, List.drop_eq_nil_of_le (Nat.le_of_not_le hbehind)]
        simp [completeLines, chunks, chunksGo]
      simp [hnone, batchesFwd] at hg
    -- Some run returns, and has been at `g`.
    have hreturns : Returns (promptRedis origin)
        (w.applyFileStream id ver url start fileSize .load) (fun _ _ => True) db :=
      returns_load w hlen hlines db
    obtain ⟨r, db', hprompt⟩ := hreturns.exists_ok
    have hstep : ∀ db (c : Cmd) (r : c.Reply) db', (promptRedis origin).step db c r db' →
        (redis origin).step db c r db' := fun _ _ _ _ hstep => hstep.1
    have hrun : Exec (redis origin) (w.applyFileStream id ver url start fileSize .load) db db'
        (.ok r) := hprompt.simulate hstep
    obtain ⟨history, hrecorded⟩ := hrun.recordedAs (fun db => db.fwd id ver) []
    have hpassed := (w.wp_loadSets.ok hrecorded).2 g hg
    rcases hrecorded.moment g hpassed with hin | ⟨t, ht, rfl⟩
    · exact absurd hin List.not_mem_nil
    · exact hall t _ ht
  · intro hall db' o hrun
    obtain ⟨history, hrecorded⟩ := hrun.recordedAs (fun db => db.fwd id ver) []
    have hat := w.wp_loadSets.always (fun _ _ h => h.1) hrecorded
    rcases List.mem_cons.mp hat with hsame | hset
    · rw [show db'.fwd id ver = _ from hsame]
      exact httl
    · exact hall _ hset

end

/-- A load that adds `a` and `b` and takes `a` away again, with batches of
two. -/
def steadyLoad : Db :=
  (scripted fun _ => [43, 97, 10, 43, 98, 10, 45, 97, 10]).after 20
    ((smallWorker true).applyFileStream smallList "v" "u" 0 9 .load) {}
    [.body ⟨[[43, 97, 10, 43, 98, 10, 45, 97, 10]], none⟩]

theorem steady_load_has_ttl : (steadyLoad.fwd smallList "v").members = {"b"} ∧
    (steadyLoad.fwd smallList "v").ttl = true := by
  have hrun : Exec (redis fun _ => [43, 97, 10, 43, 98, 10, 45, 97, 10])
      ((smallWorker true).applyFileStream smallList "v" "u" 0 9 .load) {} steadyLoad
      (.ok ⟨3, 9, false⟩) :=
    (scripted fun _ => [43, 97, 10, 43, 98, 10, 45, 97, 10]).after_sound (by decide +kernel)
  have hmembers : (steadyLoad.fwd smallList "v").members = {"b"} := by decide +kernel
  refine ⟨hmembers, ?_⟩
  exact (pending_set_has_ttl_iff (smallWorker true) (fun _ => [43, 97, 10, 43, 98, 10, 45, 97, 10])
    smallList "v" "u" 0 9 {} (by decide +kernel) (.inl rfl)).mpr (by decide +kernel)
    steadyLoad _ hrun (by rw [hmembers]; decide)

/-- A load whose first batch adds `a` and takes it away again. -/
def emptiedLoad : Db :=
  (scripted fun _ => [43, 97, 10, 45, 97, 10, 43, 98, 10]).after 20
    ((smallWorker true).applyFileStream smallList "v" "u" 0 9 .load) {}
    [.body ⟨[[43, 97, 10, 45, 97, 10, 43, 98, 10]], none⟩]

/-- The second batch makes the set anew, and nothing gives it a TTL. -/
theorem emptied_load_has_no_ttl :
    Exec (redis fun _ => [43, 97, 10, 45, 97, 10, 43, 98, 10])
        ((smallWorker true).applyFileStream smallList "v" "u" 0 9 .load) {} emptiedLoad
        (.ok ⟨3, 9, false⟩) ∧
      (emptiedLoad.fwd smallList "v").members = {"b"} ∧
      (emptiedLoad.fwd smallList "v").ttl = false :=
  ⟨(scripted fun _ => [43, 97, 10, 45, 97, 10, 43, 98, 10]).after_sound (by decide +kernel),
    by decide +kernel, by decide +kernel⟩

end IdListSyncWorker

end ForwardProxy.IdList
