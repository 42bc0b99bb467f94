/-
ForwardProxy.IdList.ReloadTheorems — everything a full reload can leave
behind.

A reload writes its progress markers (loading version, checkpoint, diff
cursor, reconcile flag) with commands of their own around the data they
describe, so a run that is cut off may stop between any two of them.
`ReloadExit` lists the views such a run can end in, phase by phase, and
`ReloadDone` the one a completed run ends in. Every invariant about
reloads in this development is derived from these two by cases; no other
proof looks inside `applyFullReload`.

The diff is only meaningful if the index is between the old and the new
forward set when it begins (or at its cursor when it is resumed). That is
a hypothesis here (`DiffReady`), which each user discharges from what it
knows about the state before the run.
-/
import Mathlib.Order.ConditionallyCompleteLattice.Basic
import ForwardProxy.IdList.FileStreamTheorems

namespace ForwardProxy.IdList

open Effect

/-- One execution of a reload: the worker, the view it starts from, the
task it runs, and the body of the task's URL. `disabled` is the index-mode
marker as the worker parsed it, before a forward-only run set it. -/
structure ReloadRun where
  w : IdListSyncWorker
  v : ListView
  disabled : Bool
  md : TaskMetadata
  file : List UInt8

namespace ReloadRun

variable (R : ReloadRun)

/-! ## What the run decides from the state it found -/

def state : ListSyncState :=
  { ListSyncState.fromHashFields R.v.state with reverseIndexDisabled := R.disabled }

def newVer : String := R.md.versionTag

def matchingLoad : Bool := R.state.loadingVersion = some R.newVer

/-- The committed forward set is gone although it had members. -/
def oldMissing : Bool :=
  (R.state.version ≠ "" && 0 < R.state.cardinality.getD R.state.size) &&
    decide (R.v.fwd R.state.version = ∅)

/-- The pending forward set is gone although it had members. -/
def pendingMissing : Bool :=
  (R.matchingLoad && 0 < R.state.loadingCardinality.getD (R.state.loadingSize.getD 0)) &&
    decide (R.v.fwd R.newVer = ∅)

def reconcile : Bool :=
  R.state.reconcileRequired || (R.w.config.enableReverseIndex && R.state.reverseIndexDisabled) ||
    R.oldMissing || R.pendingMissing || (R.state.loadingVersion.isSome && !R.matchingLoad)

def resume : Bool := R.matchingLoad && !R.pendingMissing

/-- The offset the download starts at. -/
def start : Nat := if R.resume then R.state.loadingSize.getD 0 else 0

def oldVer : Option String :=
  if R.state.version ≠ "" ∧ R.state.version ≠ R.newVer then some R.state.version else none

/-- The forward set the diff compares with. -/
def old : Finset String := R.oldVer.elim ∅ R.v.fwd

/-! ## The views it goes through -/

/-- The reconcile flag has been recorded. -/
def marked : StateHash := { R.v.state with reconcileRequired := R.reconcile }

/-- The first command of `initialize_load` has been executed. -/
def renamed : StateHash :=
  { R.marked with loadingVersion := some R.newVer, loadingSize := some 0 }

def initialized : StateHash :=
  { R.renamed with
    diffPartition := none, loadingCardinality := none, removalFanoutComplete := false }

/-- Where the download begins. -/
def started : ListView :=
  if R.resume then R.v.setState R.marked
  else (R.v.setFwd R.newVer ∅).setState R.initialized

/-- The number of complete lines from `start` on. -/
def lines : Nat := (linesFrom R.file R.start).length

/-- The diff may begin: a load whose diff had begun is taken up at its
cursor, any other one has its checkpoint at the task's size. -/
inductive Loaded : (checkpoint cursor : Nat) → ListView → Prop
  | resumed (cursor : Nat) (hresume : R.resume = true)
      (hcursor : R.v.state.diffPartition = some cursor) :
      Loaded R.start cursor R.started
  | skipped (hcursor : R.resume = true → R.v.state.diffPartition = none)
      (hsize : R.md.size ≤ R.start) :
      Loaded R.start 0 (R.started.diffed R.started.tag 0)
  | streamed (hcursor : R.resume = true → R.v.state.diffPartition = none)
      (hsize : R.start < R.md.size) (hstart : R.start ≤ R.file.length)
      (hend : R.md.size ≤ offsetAt R.file R.start R.lines) :
      Loaded (offsetAt R.file R.start R.lines) 0
        ((IdListSyncWorker.loadAt R.started R.newVer R.file R.start R.lines R.lines).diffed
          R.started.tag 0)

/-- The index the commit finds: complete in reverse mode, untouched in
forward-only mode. -/
def indexed (u : ListView) : Set String :=
  if R.w.config.enableReverseIndex then (u.fwd R.newVer : Set String) else R.v.tag

/-- The state hash after the commit's HSET. -/
def committed (h : StateHash) (checkpoint cardinality : Nat) : StateHash :=
  { h with
    version := some R.newVer
    fileId := some R.md.fileId
    url := some R.md.url
    creationTime := some R.md.creationTime
    size := some checkpoint
    cardinality := some cardinality }

/-- The state hash after the commit's first HDEL. -/
def cleaned (h : StateHash) (checkpoint cardinality : Nat) : StateHash :=
  { R.committed h checkpoint cardinality with
    loadingVersion := none
    loadingSize := none
    reconcileRequired := false
    diffPartition := none
    loadingCardinality := none
    removalFanoutComplete := false }

/-- The state hash of a completed reload. -/
def final (h : StateHash) (checkpoint cardinality : Nat) : StateHash :=
  { R.cleaned h checkpoint cardinality with
    reverseIndexDisabled := !R.w.config.enableReverseIndex && h.reverseIndexDisabled }

/-- The index as far as an interrupted diff or rebuild has brought it. -/
def Indexing (u : ListView) (cursor : Nat) (s : Set String) : Prop :=
  if R.w.config.enableReverseIndex then
    R.reconcile = true ∨
      (DiffAt (R.w.partOf (R.w.partitionCount R.old.card (u.fwd R.newVer).card)) R.old
        (u.fwd R.newVer) cursor s ∧ (R.old = ∅ → s ∈ Set.uIcc R.v.tag (u.fwd R.newVer)))
  else s = R.v.tag

/-- The check of the recorded cardinality passed. -/
def Counted (u : ListView) : Prop :=
  ∀ card, u.state.loadingCardinality = some card → card = (u.fwd R.newVer).card

/-- The views an unfinished reload can end in. -/
inductive ReloadExit : ListView → Prop
  | unstarted : ReloadExit R.v
  | marked : ReloadExit (R.v.setState R.marked)
  | deleted (h : R.resume = false) : ReloadExit ((R.v.setFwd R.newVer ∅).setState R.marked)
  | renamed (h : R.resume = false) : ReloadExit ((R.v.setFwd R.newVer ∅).setState R.renamed)
  | loading (i j : Nat) (hij : i ≤ j)
      (hcursor : 0 < j → R.resume = true → R.v.state.diffPartition = none) :
      ReloadExit (IdListSyncWorker.loadAt R.started R.newVer R.file R.start i j)
  | loaded (checkpoint cursor : Nat) (u : ListView) (hu : R.Loaded checkpoint cursor u) :
      ReloadExit u
  | indexing (checkpoint cursor cursor' : Nat) (u : ListView) (s : Set String)
      (hu : R.Loaded checkpoint cursor u) (hcount : R.Counted u) (hs : R.Indexing u cursor' s) :
      ReloadExit (u.diffed s cursor')
  | committed (checkpoint cursor cursor' : Nat) (u : ListView)
      (hu : R.Loaded checkpoint cursor u) (hcount : R.Counted u) :
      ReloadExit ((u.setTag (R.indexed u)).setState
        (R.committed { u.state with diffPartition := some cursor' } checkpoint
          (u.fwd R.newVer).card))
  | cleaned (checkpoint cursor : Nat) (u : ListView)
      (hu : R.Loaded checkpoint cursor u) (hcount : R.Counted u) :
      ReloadExit ((u.setTag (R.indexed u)).setState
        (R.cleaned u.state checkpoint (u.fwd R.newVer).card))
  | finished (checkpoint cursor : Nat) (u : ListView)
      (hu : R.Loaded checkpoint cursor u) (hcount : R.Counted u) :
      ReloadExit ((u.setTag (R.indexed u)).setState
        (R.final u.state checkpoint (u.fwd R.newVer).card))

/-- The view a completed reload ends in. -/
def ReloadDone (v' : ListView) : Prop :=
  ∃ checkpoint cursor u, R.Loaded checkpoint cursor u ∧ R.Counted u ∧
    v' = (u.setTag (R.indexed u)).setState (R.final u.state checkpoint (u.fwd R.newVer).card)

/-- The index is where the diff expects it. -/
def DiffReady : Prop :=
  R.w.config.enableReverseIndex = true → R.reconcile = false →
    ∀ checkpoint cursor u, R.Loaded checkpoint cursor u → R.Counted u →
      DiffAt (R.w.partOf (R.w.partitionCount R.old.card (u.fwd R.newVer).card)) R.old
        (u.fwd R.newVer) cursor R.v.tag

/-! ## Facts about the phases -/

theorem started_tag : R.started.tag = R.v.tag := by
  unfold started
  split <;> rfl

theorem started_tok : R.started.tok = R.v.tok := by
  unfold started
  split <;> rfl

theorem oldVer_ne {ver : String} (h : R.oldVer = some ver) : ver ≠ R.newVer := by
  unfold oldVer at h
  split at h
  · rename_i hver
    obtain rfl : R.state.version = ver := by simpa using h
    exact hver.2
  · simp at h

theorem started_fwd {ver : String} (h : ver ≠ R.newVer) : R.started.fwd ver = R.v.fwd ver := by
  unfold started
  split
  · rfl
  · simp [Function.update_of_ne h]

variable {R} in
theorem Loaded.tag {checkpoint cursor : Nat} {u : ListView} (h : R.Loaded checkpoint cursor u) :
    u.tag = R.v.tag := by
  cases h with
  | resumed => exact R.started_tag
  | skipped => exact R.started_tag
  | streamed => exact R.started_tag

variable {R} in
theorem Loaded.tok {checkpoint cursor : Nat} {u : ListView} (h : R.Loaded checkpoint cursor u) :
    u.tok = R.v.tok := by
  cases h with
  | resumed => exact R.started_tok
  | skipped => exact R.started_tok
  | streamed => exact R.started_tok

variable {R} in
/-- Loading changes no other version's set. -/
theorem Loaded.fwd {checkpoint cursor : Nat} {u : ListView} (h : R.Loaded checkpoint cursor u)
    {ver : String} (hver : ver ≠ R.newVer) : u.fwd ver = R.v.fwd ver := by
  cases h with
  | resumed => exact R.started_fwd hver
  | skipped => exact R.started_fwd hver
  | streamed =>
    have hload : (IdListSyncWorker.loadAt R.started R.newVer R.file R.start R.lines R.lines).fwd ver
        = R.started.fwd ver := by
      simp [IdListSyncWorker.loadAt, Function.update_of_ne hver]
    exact hload.trans (R.started_fwd hver)

variable {R} in
theorem Loaded.old {checkpoint cursor : Nat} {u : ListView} (h : R.Loaded checkpoint cursor u) :
    R.oldVer.elim ∅ u.fwd = R.old := by
  unfold ReloadRun.old
  cases hold : R.oldVer with
  | none => rfl
  | some ver => exact h.fwd (R.oldVer_ne hold)

theorem started_diffPartition :
    R.started.state.diffPartition = if R.resume then R.v.state.diffPartition else none := by
  unfold started
  split <;> rfl

variable {R} in
theorem Loaded.cursor {checkpoint cursor : Nat} {u : ListView} (h : R.Loaded checkpoint cursor u) :
    u.state.diffPartition = some cursor := by
  cases h with
  | resumed _ hresume hcursor => rw [started_diffPartition, if_pos hresume, hcursor]
  | skipped => rfl
  | streamed => rfl

theorem started_reconcile : R.started.state.reconcileRequired = R.reconcile := by
  unfold started
  split <;> rfl

variable {R} in
theorem Loaded.reconcile {checkpoint cursor : Nat} {u : ListView}
    (h : R.Loaded checkpoint cursor u) : u.state.reconcileRequired = R.reconcile := by
  cases h with
  | resumed => exact R.started_reconcile
  | skipped => exact R.started_reconcile
  | streamed =>
    rw [← R.started_reconcile]
    simp only [ListView.diffed, IdListSyncWorker.loadAt, IdListSyncWorker.loadState,
      ListView.setState_state]
    split <;> rfl

/-- A run that has not changed anything since `started` may stop there. -/
theorem exit_started : R.ReloadExit R.started := by
  have h := ReloadExit.loading (R := R) 0 0 (Nat.le_refl 0) (by omega)
  rwa [IdListSyncWorker.loadAt_zero] at h

/-! ## Proof, phase by phase -/

section

variable {R} {origin : String → List UInt8} {id : ListId}

theorem wp_initializeLoad (hresume : R.resume = false) :
    Wp (listRedis origin id) (IdListSyncWorker.initializeLoad id R.newVer)
      (fun _ v' => v' = (R.v.setFwd R.newVer ∅).setState R.initialized) R.ReloadExit
      ((R.v.setFwd R.newVer ∅).setState R.marked) := by
  refine wp_write rfl (.deleted hresume) (wp_write_end rfl ?_ ?_ ?_)
  · rw [ListView.after_hsetState]
    exact .renamed hresume
  all_goals
    rw [ListView.after_hsetState, ListView.after_hdelState]
  · have h := R.exit_started
    rw [started, hresume] at h
    exact h
  · rfl

theorem wp_startReload :
    Wp (listRedis origin id) (R.w.startReload id R.state R.newVer)
      (fun r v' => r = (R.reconcile, R.resume) ∧ v' = R.started) R.ReloadExit R.v := by
  have hunmarked : R.reconcile = false → R.v = R.v.setState R.marked := by
    intro h
    have hflag : R.v.state.reconcileRequired = false := by
      unfold reconcile at h
      simp only [Bool.or_eq_false_iff] at h
      exact h.1.1.1.1
    have hsame : R.marked = R.v.state := by
      rw [marked, h, ← hflag]
    rw [hsame]
    rfl
  refine wp_keyMissing (wp_keyMissing (wp_write rfl .unstarted ?_))
  refine Wp.seq (P := fun _ v' => v' = R.v.setState R.marked) ?_ ?_
  · refine Wp.when (fun hrec => ?_) (fun _ => .unstarted) hunmarked
    have hrec : R.reconcile = true := hrec
    have hmark : R.v.setState (R.v.state.setAll [.reconcileRequired]) = R.v.setState R.marked := by
      rw [marked, hrec]
      rfl
    refine wp_write rfl .unstarted (wp_write_end rfl .unstarted ?_ ?_)
    all_goals
      simp only [ListView.after_saddAll, ListView.after_delReady, ListView.after_hsetState, hmark]
    exact .marked
  · rintro _ v' rfl
    refine Wp.seq (P := fun _ v' => v' = R.started) ?_ ?_
    · refine Wp.when (fun hres => ?_) (fun _ => .marked) fun hres => ?_
      · have hres : R.resume = false := by
          rw [Bool.not_eq_true'] at hres
          exact hres
        refine wp_write rfl .marked ?_
        rw [ListView.after_delFwd]
        refine (wp_initializeLoad hres).mono ?_ fun _ h => h
        rintro _ v' rfl
        rw [started, hres]
        rfl
      · have hres : R.resume = true := by
          rw [Bool.not_eq_false'] at hres
          exact hres
        rw [started, hres]
        rfl
    · rintro _ v' rfl
      exact .pure R.exit_started ⟨rfl, rfl⟩

theorem wp_loadReload (hfile : origin R.md.url = R.file)
    (hcursor : R.resume = true → R.v.state.diffPartition = none) :
    Wp (listRedis origin id) (R.w.loadReload id R.md R.newVer R.start)
      (fun checkpoint v' => R.Loaded checkpoint 0 v') R.ReloadExit R.started := by
  refine Wp.ite (fun hlt => ?_) fun hge => ?_
  · refine Wp.seq (R.w.wp_loadStream.mono (fun _ _ h => h) ?_) ?_
    · rintro v' ⟨i, j, hij, rfl⟩
      rw [hfile]
      exact .loading i j hij fun _ => hcursor
    · rintro r v' ⟨hlen, rfl, hcp⟩
      rw [hfile] at hlen hcp ⊢
      have hexit : R.ReloadExit
          (IdListSyncWorker.loadAt R.started R.newVer R.file R.start R.lines R.lines) :=
        .loading _ _ (Nat.le_refl _) fun _ => hcursor
      refine Wp.ite (fun _ => .throw hexit) fun hend => ?_
      have hloaded := Loaded.streamed (R := R) hcursor hlt hlen (by
        rw [hcp] at hend
        exact Nat.not_lt.mp hend)
      refine wp_write rfl hexit (.pure ?_ ?_)
      · rw [ListView.after_hsetState]
        exact .loaded _ _ _ hloaded
      · rw [ListView.after_hsetState, hcp]
        exact hloaded
  · have hloaded := Loaded.skipped (R := R) hcursor (Nat.not_lt.mp hge)
    refine wp_write rfl R.exit_started (.pure ?_ ?_)
    · rw [ListView.after_hsetState]
      exact .loaded _ _ _ hloaded
    · rw [ListView.after_hsetState]
      exact hloaded

variable {checkpoint cursor : Nat} {u : ListView}

theorem Loaded.diffed_self (hu : R.Loaded checkpoint cursor u) (s : Set String) :
    u.diffed s cursor = u.setTag s :=
  ListView.diffed_self hu.cursor s

/-- The reverse-index phase. -/
theorem wp_reindexReload (hready : R.DiffReady) (hu : R.Loaded checkpoint cursor u)
    (hcount : R.Counted u) :
    Wp (listRedis origin id)
      (R.w.reindexReload id R.oldVer R.newVer R.reconcile R.v.tok cursor R.old.card
        (u.fwd R.newVer).card)
      (fun _ v' => ∃ cursor', v' = u.diffed (R.indexed u) cursor' ∧ R.ReloadExit v')
      R.ReloadExit u := by
  by_cases hrev : R.w.config.enableReverseIndex = true
  · have hexit : ∀ cursor' s, (R.reconcile = true ∨
        (DiffAt (R.w.partOf (R.w.partitionCount R.old.card (u.fwd R.newVer).card)) R.old
          (u.fwd R.newVer) cursor' s ∧ (R.old = ∅ → s ∈ Set.uIcc R.v.tag (u.fwd R.newVer)))) →
        R.ReloadExit (u.diffed s cursor') := by
      intro cursor' s hs
      refine .indexing checkpoint cursor cursor' u s hu hcount ?_
      unfold Indexing
      rw [if_pos hrev]
      exact hs
    have hindexed : R.indexed u = u.fwd R.newVer := by
      unfold indexed
      rw [if_pos hrev]
    rw [← hu.tok]
    by_cases hrec : R.reconcile = true
    · refine Wp.ite (fun _ => ?_) fun hne => absurd (by simp [hrev, hrec]) hne
      refine Wp.seq (R.w.wp_clearReverseToken.mono (fun _ _ h => h) ?_) ?_
      · rintro v' ⟨s, _, rfl⟩
        rw [← hu.diffed_self]
        exact hexit cursor s (.inl hrec)
      · rintro _ v' rfl
        refine (R.w.wp_fanoutScan (v := u.setTag ∅) R.newVer true _).mono ?_ ?_
        · rintro _ v' rfl
          have hfan : (u.setTag ∅).setTag (fanned true (u.setTag ∅).tag (u.fwd R.newVer)) =
              u.diffed (R.indexed u) cursor := by
            rw [hu.diffed_self, hindexed]
            simp [fanned]
          exact ⟨cursor, hfan, hfan ▸ hexit cursor _ (.inl hrec)⟩
        · rintro v' ⟨s, _, rfl⟩
          rw [ListView.setTag_setTag, ← hu.diffed_self]
          exact hexit cursor s (.inl hrec)
    · have hrec : R.reconcile = false := by simpa using hrec
      refine Wp.ite (fun hne => absurd hne (by simp [hrec])) fun _ => ?_
      refine Wp.when (fun _ => ?_) (fun hne => absurd hrev (by simp [hne])) fun hne =>
        absurd hrev (by simp [hne])
      have hdiff := hready hrev hrec checkpoint cursor u hu hcount
      rw [← hu.tag] at hdiff
      refine (R.w.wp_applyStreamedDiff hu.old.symm hu.cursor hdiff).mono ?_ ?_
      · rintro _ v' ⟨j, rfl⟩
        refine ⟨j, by rw [hindexed], ?_⟩
        exact hexit j _ (.inr ⟨⟨Set.right_mem_uIcc, fun _ _ => Iff.rfl⟩,
          fun _ => Set.right_mem_uIcc⟩)
      · rintro v' ⟨j, s, hs, rfl⟩
        rw [hu.tag] at hs
        exact hexit j s (.inr hs)
  · have hrev : R.w.config.enableReverseIndex = false := by simpa using hrev
    have hself : u = u.diffed (R.indexed u) cursor := by
      rw [hu.diffed_self, indexed, hrev, if_neg (by simp), ← hu.tag]
      rfl
    refine Wp.ite (fun hne => absurd hne (by simp [hrev])) fun _ => ?_
    refine Wp.when (fun hne => absurd hne (by simp [hrev])) (fun _ => .loaded _ _ _ hu) fun _ => ?_
    exact ⟨cursor, hself, .loaded _ _ _ hu⟩

theorem wp_commitReload (hu : R.Loaded checkpoint cursor u) (hcount : R.Counted u)
    (cursor' : Nat) (hexit : R.ReloadExit (u.diffed (R.indexed u) cursor')) :
    Wp (listRedis origin id)
      (R.w.commitReload id R.newVer R.oldVer { R.md with size := checkpoint })
      (fun _ v' => R.ReloadDone v') R.ReloadExit (u.diffed (R.indexed u) cursor') := by
  have hcommitted := ReloadExit.committed checkpoint cursor cursor' u hu hcount
  have hcleaned := ReloadExit.cleaned checkpoint cursor u hu hcount
  have hfinished := ReloadExit.finished checkpoint cursor u hu hcount
  refine wp_scard (wp_write rfl hexit ?_)
  rw [ListView.after_hsetState]
  refine wp_write rfl hcommitted ?_
  rw [ListView.after_hdelState]
  refine wp_write rfl hcleaned ?_
  rw [ListView.after_saddAll]
  refine Wp.seq (P := fun _ v' => v' = (u.setTag (R.indexed u)).setState
    (R.final u.state checkpoint (u.fwd R.newVer).card)) ?_ ?_
  · refine Wp.when (fun hrev => wp_write_end rfl hcleaned ?_ ?_) (fun _ => hcleaned) fun hrev => ?_
    · have hfinal : R.final u.state checkpoint (u.fwd R.newVer).card =
          { R.cleaned u.state checkpoint (u.fwd R.newVer).card with
            reverseIndexDisabled := false } := by
        rw [final, hrev]
        rfl
      rw [hfinal] at hfinished
      rw [ListView.after_hdelState]
      exact hfinished
    · rw [ListView.after_hdelState, final, hrev]
      rfl
    · rw [final, hrev]
      rfl
  · rintro _ v' rfl
    have hdone : R.ReloadDone ((u.setTag (R.indexed u)).setState
        (R.final u.state checkpoint (u.fwd R.newVer).card)) :=
      ⟨checkpoint, cursor, u, hu, hcount, rfl⟩
    refine wp_write rfl hfinished ?_
    rw [ListView.after_persistFwd]
    cases R.oldVer with
    | none => exact .pure hfinished hdone
    | some old =>
      exact Wp.when (fun _ => wp_write_end rfl hfinished hfinished hdone) (fun _ => hfinished)
        fun _ => hdone

/-- A set found missing at the comparison was missing at the start. -/
theorem reconcile_of_late
    (h : (R.oldVer.isSome && decide (0 < R.state.cardinality.getD R.state.size) &&
      decide (R.old.card = 0)) = true) : R.reconcile = true := by
  simp only [Bool.and_eq_true, decide_eq_true_iff, Finset.card_eq_zero] at h
  obtain ⟨⟨hsome, hcard⟩, hempty⟩ := h
  have hver : R.state.version ≠ "" ∧ R.state.version ≠ R.newVer := by
    by_contra hnot
    rw [oldVer, if_neg hnot] at hsome
    simp at hsome
  have hfwd : R.v.fwd R.state.version = ∅ := by
    rw [old, oldVer, if_pos hver] at hempty
    exact hempty
  have hmissing : R.oldMissing = true := by
    simp [oldMissing, hver.1, hcard, hfwd]
  simp [reconcile, hmissing]

/-- The publication, through what its last three steps do. -/
theorem wp_publishReload_of {Q : Unit → ListView → Prop} {X : ListView → Prop}
    (hu : R.Loaded checkpoint cursor u) (hexit : X u)
    (hrest : R.Counted u → Wp (listRedis origin id) (do
      R.w.reindexReload id R.oldVer R.newVer R.reconcile R.v.tok cursor R.old.card
        (u.fwd R.newVer).card
      renewNow
      R.w.commitReload id R.newVer R.oldVer { R.md with size := checkpoint }) Q X u) :
    Wp (listRedis origin id)
      (R.w.publishReload id R.state R.md R.newVer R.reconcile R.v.tok checkpoint cursor) Q X u := by
  refine wp_scardOpt (wp_scard (wp_hgetState ?_))
  have hold : (R.oldVer.elim 0 fun x => (u.fwd x).card) = R.old.card := by
    rw [← hu.old]
    cases R.oldVer <;> rfl
  refine Wp.ite (fun _ => .throw hexit) fun hcheck => ?_
  have hcount : R.Counted u := by
    intro card hcard
    by_contra hne
    exact hcheck (by simp [hcard, hne])
  change Wp _ (do
    Prog.when (R.oldVer.isSome && decide (0 < R.state.cardinality.getD R.state.size) &&
      decide ((R.oldVer.elim 0 fun x => (u.fwd x).card) = 0)) _
    R.w.reindexReload id R.oldVer R.newVer (R.reconcile || (R.oldVer.isSome &&
      decide (0 < R.state.cardinality.getD R.state.size) &&
      decide ((R.oldVer.elim 0 fun x => (u.fwd x).card) = 0))) R.v.tok cursor
      (R.oldVer.elim 0 fun x => (u.fwd x).card) (u.fwd R.newVer).card
    renewNow
    R.w.commitReload id R.newVer R.oldVer { R.md with size := checkpoint }) _ _ _
  rw [hold]
  have hflag : (R.reconcile || (R.oldVer.isSome &&
      decide (0 < R.state.cardinality.getD R.state.size) && decide (R.old.card = 0))) =
      R.reconcile := by
    rw [Bool.or_eq_left_iff_imp]
    exact reconcile_of_late
  rw [hflag]
  refine Wp.seq (P := fun _ v' => v' = u) ?_ ?_
  · refine Wp.when (fun hlate => ?_) (fun _ => hexit) fun _ => rfl
    have hsame : u.setState (u.state.setAll [.reconcileRequired]) = u := by
      have hset : u.state.setAll [.reconcileRequired] = u.state := by
        have hrec := hu.reconcile.trans (reconcile_of_late hlate)
        change { u.state with reconcileRequired := true } = u.state
        rw [← hrec]
      rw [hset]
      rfl
    refine wp_write rfl hexit ?_
    rw [ListView.after_hsetState, hsame]
    exact wp_write_end rfl hexit hexit rfl
  · rintro _ v' rfl
    exact hrest hcount

theorem wp_publishReload (hready : R.DiffReady) (hu : R.Loaded checkpoint cursor u) :
    Wp (listRedis origin id)
      (R.w.publishReload id R.state R.md R.newVer R.reconcile R.v.tok checkpoint cursor)
      (fun _ v' => R.ReloadDone v') R.ReloadExit u := by
  refine wp_publishReload_of hu (.loaded checkpoint cursor u hu) fun hcount => ?_
  refine Wp.seq (wp_reindexReload hready hu hcount) ?_
  rintro _ v' ⟨cursor', rfl, hindexing⟩
  exact wp_renewNow (wp_commitReload hu hcount cursor' hindexing)

/-! ## Repair without a download -/

/-- The committed set can be indexed again as it stands. -/
def repairs (R : ReloadRun) : Prop :=
  R.w.config.enableReverseIndex = true ∧ R.disabled = true ∧ R.state.version ≠ "" ∧
    R.state.fileId = R.md.fileId ∧ R.state.size = R.md.size ∧ R.state.loadingVersion = none ∧
    R.state.cardinality = some (R.v.fwd R.state.version).card

/-- What an unfinished repair leaves: the flag, and any part of the index. -/
inductive RepairExit (R : ReloadRun) : ListView → Prop
  | unstarted : RepairExit R R.v
  | rebuilding (s : Set String) :
      RepairExit R ((R.v.setTag s).setState { R.v.state with reconcileRequired := true })
  | repaired : RepairExit R ((R.v.setTag (R.v.fwd R.state.version)).setState
      { R.v.state with reconcileRequired := false, reverseIndexDisabled := false })

/-- What a completed repair leaves. -/
def RepairDone (R : ReloadRun) (v' : ListView) : Prop :=
  v' = (R.v.setTag (R.v.fwd R.state.version)).setState
    { R.v.state with reconcileRequired := false, reverseIndexDisabled := false }

theorem wp_reconcileCommittedForward :
    Wp (listRedis origin id) (R.w.reconcileCommittedForward id R.state R.md)
      (fun r v' => (r = false ∧ ¬ R.repairs ∧ v' = R.v) ∨ (r = true ∧ R.repairs ∧ R.RepairDone v'))
      (fun v' => v' = R.v ∨ (R.repairs ∧ R.RepairExit v')) R.v := by
  have hunstarted : ∀ {Y : Prop}, R.v = R.v ∨ Y := .inl rfl
  refine Wp.ite (fun hcond => .pure hunstarted (.inl ⟨rfl, ?_, rfl⟩)) fun hcond => ?_
  · intro ⟨hrev, hdis, hver, hfile, hsize, hload, _⟩
    have hdis : R.state.reverseIndexDisabled = true := hdis
    simp [hrev, hdis, hver, hfile, hsize, hload] at hcond
  simp only [Bool.not_eq_true, Bool.or_eq_false_iff, Bool.not_eq_false', decide_eq_false_iff_not,
    not_not, Option.isSome_eq_false_iff, Option.isNone_iff_eq_none] at hcond
  obtain ⟨⟨⟨⟨⟨hrev, hdis⟩, hver⟩, hfile⟩, hsize⟩, hload⟩ := hcond
  refine wp_scard (Wp.ite (fun hcard => .pure hunstarted (.inl ⟨rfl, ?_, rfl⟩)) fun hcard => ?_)
  · intro hrep
    exact hcard hrep.2.2.2.2.2.2
  have hrepairs : R.repairs := ⟨hrev, hdis, hver, hfile, hsize, hload, not_not.mp hcard⟩
  have hexit : ∀ s, R.v.setTag s = R.v ∨ (R.repairs ∧ R.RepairExit
      ((R.v.setTag s).setState { R.v.state with reconcileRequired := true })) :=
    fun s => .inr ⟨hrepairs, .rebuilding s⟩
  refine wp_ensureCurrentVersionPersisted (wp_write rfl hunstarted ?_)
  rw [ListView.after_hsetState]
  refine wp_write rfl (.inr ⟨hrepairs, .rebuilding R.v.tag⟩) ?_
  rw [ListView.after_delReady]
  refine wp_getOrAllocateToken ?_
  refine Wp.seq (R.w.wp_clearReverseToken.mono (fun _ _ h => h) ?_) ?_
  · rintro v' ⟨s, _, rfl⟩
    exact .inr ⟨hrepairs, .rebuilding s⟩
  rintro _ v' rfl
  refine Wp.seq ((R.w.wp_fanoutScan
    (v := (R.v.setState (R.v.state.setAll [.reconcileRequired])).setTag ∅)
    R.state.version true _).mono (fun _ _ h => h) ?_) ?_
  · rintro v' ⟨s, _, rfl⟩
    exact .inr ⟨hrepairs, .rebuilding s⟩
  rintro _ v' rfl
  refine wp_renewNow (wp_write rfl (.inr ⟨hrepairs, .rebuilding _⟩) ?_)
  rw [ListView.after_hdelState]
  have hdone : (((R.v.setState (R.v.state.setAll [.reconcileRequired])).setTag ∅).setTag
      (fanned true ∅ (R.v.fwd R.state.version))).setState
        (StateHash.delAll (R.v.state.setAll [.reconcileRequired])
          [.reverseIndexDisabled, .reconcileRequired]) =
      (R.v.setTag (R.v.fwd R.state.version)).setState
        { R.v.state with reconcileRequired := false, reverseIndexDisabled := false } := by
    have hfan : fanned true ∅ (R.v.fwd R.state.version : Set String) =
        (R.v.fwd R.state.version : Set String) := by simp [fanned]
    rw [hfan]
    rfl
  refine .pure (.inr ⟨hrepairs, ?_⟩) (.inr ⟨rfl, hrepairs, hdone⟩)
  exact Eq.mpr (congrArg R.RepairExit hdone) .repaired

/-- **A full reload**, whole: it repairs the committed set, or it loads,
indexes and commits the task's version; cut off, it leaves one of the
views of the phase it was in. -/
theorem wp_applyFullReload (hfile : origin R.md.url = R.file) (hready : R.DiffReady) :
    Wp (listRedis origin id) (R.w.applyFullReload id R.state R.md)
      (fun _ v' => (R.repairs ∧ R.RepairDone v') ∨ R.ReloadDone v')
      (fun v' => (R.repairs ∧ R.RepairExit v') ∨ R.ReloadExit v') R.v := by
  refine Wp.seq (wp_reconcileCommittedForward.mono (fun _ _ h => h) ?_) ?_
  · rintro v' (rfl | h)
    · exact .inr .unstarted
    · exact .inl h
  rintro repaired v' (⟨rfl, _, rfl⟩ | ⟨rfl, hrep, hdone⟩)
  · refine Wp.mono (Q := fun _ v' => R.ReloadDone v') (X := R.ReloadExit) ?_
      (fun _ _ h => .inr h) fun _ h => .inr h
    refine Wp.seq wp_startReload ?_
    rintro ⟨reconcile, resume⟩ v' ⟨hr, rfl⟩
    obtain ⟨rfl, rfl⟩ := Prod.mk.inj hr
    refine wp_getOrAllocateToken ?_
    rw [started_tok]
    by_cases hresume : R.resume = true
    · cases hcursor : R.v.state.diffPartition with
      | some cursor =>
        have hstate : R.state.diffPartition = some cursor := hcursor
        simp only [hresume, if_true, hstate]
        have hstart : R.state.loadingSize.getD 0 = R.start := by
          rw [start, if_pos hresume]
        rw [hstart]
        exact wp_publishReload hready (.resumed cursor hresume hcursor)
      | none =>
        have hstate : R.state.diffPartition = none := hcursor
        simp only [hresume, if_true, hstate]
        have hstart : R.state.loadingSize.getD 0 = R.start := by
          rw [start, if_pos hresume]
        rw [hstart]
        refine Wp.seq (wp_loadReload hfile fun _ => hcursor) ?_
        exact fun checkpoint u hu => wp_publishReload hready hu
    · have hresume : R.resume = false := by simpa using hresume
      have hstart : R.start = 0 := by
        rw [start, hresume]
        rfl
      have hload : Wp (listRedis origin id) (R.w.loadReload id R.md R.newVer R.start)
          (fun checkpoint v' => R.Loaded checkpoint 0 v') R.ReloadExit R.started :=
        wp_loadReload hfile fun h => absurd h (by simp [hresume])
      simp only [hresume, Bool.false_eq_true, if_false]
      rw [hstart] at hload
      refine Wp.seq hload ?_
      exact fun checkpoint u hu => wp_publishReload hready hu
  · refine Wp.ite (fun _ => ?_) fun hne => absurd rfl hne
    refine .pure (.inl ⟨hrep, ?_⟩) (.inl ⟨hrep, hdone⟩)
    rw [hdone]
    exact .repaired

end

end ReloadRun

end ForwardProxy.IdList
