/-
ForwardProxy.IdList.IndexInvariant — what is always true of the reverse
index of a list.

Either one of four marks says that the index cannot be trusted (and every
reload rebuilds it when it sees one of them), or the index is exactly
where the state hash says: equal to the committed forward set, or at the
cursor of the diff that is under way, or, after the commit of a version
whose load markers are still there, equal to that version's set.

`Good` is this, with the three facts about the state hash it needs to be
inductive. A reload keeps it wherever it stops (`good_exit`), and a
completed reload in reverse mode makes the index exact (`good_done`).
-/
import ForwardProxy.IdList.SchemaTheorems
import ForwardProxy.IdList.ReloadTheorems

namespace ForwardProxy.IdList

open Effect

namespace ListView

variable (v : ListView)

/-- The committed version, `""` when there is none. -/
def version : String := v.state.version.getD ""

/-- The committed forward set, empty when there is none. -/
def committed : Finset String := if v.version = "" then ∅ else v.fwd v.version

/-- The committed forward set is gone although it had members. -/
def Lost : Prop :=
  v.version ≠ "" ∧ 0 < v.state.cardinality.getD (v.state.size.getD 0) ∧ v.fwd v.version = ∅

/-- A stored count of zero says that no member has the token. -/
def CountSound : Prop := v.state.cardinality.getD (v.state.size.getD 0) = 0 → v.tag = ∅

/-- The pending forward set is gone although it had members. -/
def PendingLost : Prop :=
  ∃ n, v.state.loadingVersion = some n ∧
    0 < v.state.loadingCardinality.getD (v.state.loadingSize.getD 0) ∧ v.fwd n = ∅

/-- The marks under which a reload rebuilds the index from scratch. -/
def Flagged : Prop :=
  v.state.reverseIndexDisabled = true ∨ v.state.reconcileRequired = true ∨ v.Lost ∨ v.PendingLost

end ListView

/-- The stored tag is the tag of the stored file. -/
def StateHash.WellTagged (h : StateHash) : Prop :=
  h.version.getD "" ≠ "" →
    h.version.getD "" = versionTag (ListSyncState.fromHashFields h).committedMeta

/-- The index is where the state hash says. -/
structure Exact (w : IdListSyncWorker) (v : ListView) : Prop where
  idle : v.state.loadingVersion = none → v.tag = v.committed
  pending : ∀ n, v.state.loadingVersion = some n → n ≠ v.version →
    v.state.diffPartition = none → v.tag = v.committed
  diffing : ∀ n j, v.state.loadingVersion = some n → n ≠ v.version →
    v.state.diffPartition = some j →
    DiffAt (w.partOf (w.partitionCount v.committed.card (v.fwd n).card)) v.committed (v.fwd n) j
      v.tag
  reloaded : v.state.loadingVersion = some v.version →
    v.tag = v.fwd v.version ∧ v.state.diffPartition ≠ none

structure Good (w : IdListSyncWorker) (v : ListView) : Prop where
  /-- Without a load there are no load markers. -/
  idle : v.state.loadingVersion = none →
    v.state.diffPartition = none ∧ v.state.loadingSize = none ∧ v.state.loadingCardinality = none
  tagged : v.state.WellTagged
  /-- The reconcile flag never stands alone, so the planner sees it. -/
  recovers : v.state.reconcileRequired = true →
    v.state.loadingVersion ≠ none ∨ v.state.reverseIndexDisabled = true ∨ v.Lost
  index : v.Flagged ∨ Exact w v

/-- What a completed task in reverse mode leaves: an exact index, and no
mark of work to do. -/
structure Settled (v : ListView) : Prop where
  index : v.tag = v.committed
  loadingVersion : v.state.loadingVersion = none
  loadingSize : v.state.loadingSize = none
  loadingCardinality : v.state.loadingCardinality = none
  diffPartition : v.state.diffPartition = none
  reconcileRequired : v.state.reconcileRequired = false
  reverseIndexDisabled : v.state.reverseIndexDisabled = false

theorem Settled.good {v : ListView} (h : Settled v) (w : IdListSyncWorker)
    (htagged : v.state.WellTagged) : Good w v := by
  refine ⟨fun _ => ⟨h.diffPartition, h.loadingSize, h.loadingCardinality⟩, htagged, fun hflag => ?_,
    .inr ⟨fun _ => h.index, ?_, ?_, ?_⟩⟩
  · simp [h.reconcileRequired] at hflag
  all_goals simp [h.loadingVersion]

/-- An idle list none of whose marks is up is settled. -/
theorem Good.settled {v : ListView} {w : IdListSyncWorker} (h : Good w v)
    (hload : v.state.loadingVersion = none) (hdis : v.state.reverseIndexDisabled = false)
    (hlost : ¬ v.Lost) : Settled v := by
  obtain ⟨hdiff, hsize, hcard⟩ := h.idle hload
  have hrec : v.state.reconcileRequired = false := by
    by_contra hflag
    rcases h.recovers (by simpa using hflag) with h | h | h
    · exact h hload
    · simp [hdis] at h
    · exact hlost h
  have hexact : Exact w v := by
    refine h.index.resolve_left ?_
    rintro (hflag | hflag | hflag | ⟨n, hn, _⟩)
    · simp [hdis] at hflag
    · simp [hrec] at hflag
    · exact hlost hflag
    · simp [hload] at hn
  exact ⟨hexact.idle hload, hload, hsize, hcard, hdiff, hrec, hdis⟩

namespace ReloadRun

variable (R : ReloadRun)

/-- The version that is committed is reloaded only to recover it. -/
def Recovers : Prop :=
  R.newVer = R.v.version →
    (R.w.config.enableReverseIndex = true ∧ R.disabled = true) ∨
      R.v.state.loadingVersion ≠ none ∨ R.v.Lost

/-- In reverse mode the run knows the index-mode marker; a forward-only
run has set it. -/
def ModeKnown : Prop :=
  if R.w.config.enableReverseIndex then R.disabled = R.v.state.reverseIndexDisabled
  else R.v.state.reverseIndexDisabled = true

theorem oldMissing_iff : R.oldMissing = true ↔ R.v.Lost := by
  unfold oldMissing ListView.Lost ListView.version
  simp only [Bool.and_eq_true, decide_eq_true_iff, and_assoc]
  rfl

/-- The state hash from the start of the load on: the load markers move,
the committed fields do not. -/
def pendingState (size card : Option Nat) (cursor : Option Nat) (removal : Bool) : StateHash :=
  { R.v.state with
    reconcileRequired := R.reconcile
    loadingVersion := some R.newVer
    loadingSize := size
    loadingCardinality := card
    diffPartition := cursor
    removalFanoutComplete := removal }

theorem matching_loading (h : R.matchingLoad = true) :
    R.v.state.loadingVersion = some R.newVer := by
  unfold matchingLoad at h
  exact of_decide_eq_true h

theorem resume_matching (h : R.resume = true) : R.matchingLoad = true := by
  unfold resume at h
  simp only [Bool.and_eq_true] at h
  exact h.1

theorem started_state : ∃ removal,
    R.started.state = R.pendingState
      (if R.resume then R.v.state.loadingSize else some 0)
      (if R.resume then R.v.state.loadingCardinality else none)
      (if R.resume then R.v.state.diffPartition else none) removal := by
  unfold started
  by_cases h : R.resume = true
  · have hload := R.matching_loading (R.resume_matching h)
    refine ⟨R.v.state.removalFanoutComplete, ?_⟩
    simp only [h, if_true, ListView.setState_state, marked, pendingState, ← hload]
  · have h : R.resume = false := by simpa using h
    exact ⟨false, by simp [h, initialized, renamed, marked, pendingState]⟩

variable {R}

theorem loadAt_state {i j : Nat} : ∃ size card removal,
    (IdListSyncWorker.loadAt R.started R.newVer R.file R.start i j).state =
      R.pendingState size card (if R.resume then R.v.state.diffPartition else none) removal := by
  obtain ⟨removal, hst⟩ := R.started_state
  by_cases hi : i = 0
  · refine ⟨if R.resume then R.v.state.loadingSize else some 0,
      if R.resume then R.v.state.loadingCardinality else none, removal, ?_⟩
    simp only [IdListSyncWorker.loadAt, IdListSyncWorker.loadState, hi, if_true,
      ListView.setState_state]
    exact hst
  · refine ⟨some (offsetAt R.file R.start i),
      some (IdListSyncWorker.fwdAt R.started R.newVer R.file R.start i).card, removal, ?_⟩
    simp only [IdListSyncWorker.loadAt, IdListSyncWorker.loadState, hi, if_false,
      ListView.setState_state, hst]
    rfl

theorem Loaded.state {checkpoint cursor : Nat} {u : ListView} (h : R.Loaded checkpoint cursor u) :
    ∃ size card removal, u.state = R.pendingState size card (some cursor) removal := by
  cases h with
  | resumed cursor hresume hcursor =>
    obtain ⟨removal, hst⟩ := R.started_state
    rw [hst, if_pos hresume, if_pos hresume, if_pos hresume, hcursor]
    exact ⟨_, _, _, rfl⟩
  | skipped =>
    obtain ⟨removal, hst⟩ := R.started_state
    refine ⟨if R.resume then R.v.state.loadingSize else some 0,
      if R.resume then R.v.state.loadingCardinality else none, removal, ?_⟩
    show { R.started.state with diffPartition := some 0 } = _
    rw [hst]
    rfl
  | streamed =>
    obtain ⟨size, card, removal, hst⟩ := loadAt_state (R := R) (i := R.lines) (j := R.lines)
    refine ⟨size, card, removal, ?_⟩
    show { (IdListSyncWorker.loadAt R.started R.newVer R.file R.start R.lines R.lines).state with
      diffPartition := some 0 } = _
    rw [hst]
    rfl

theorem loadAt_fwd {i j : Nat} {ver : String} (h : ver ≠ R.newVer) :
    (IdListSyncWorker.loadAt R.started R.newVer R.file R.start i j).fwd ver = R.v.fwd ver := by
  rw [← R.started_fwd h]
  simp [IdListSyncWorker.loadAt, Function.update_of_ne h]

theorem newVer_ne_empty : R.newVer ≠ "" := versionTag_ne_empty _

/-! ## What a run without the reconcile flag knows -/

section

variable (hmode : R.ModeKnown) (hgood : Good R.w R.v) (hrecovers : R.Recovers)
  (hrev : R.w.config.enableReverseIndex = true) (hrec : R.reconcile = false)

include hrec in
theorem reconcile_false : R.v.state.reconcileRequired = false ∧
    (R.w.config.enableReverseIndex = true → R.disabled = false) ∧ ¬ R.v.Lost ∧
    R.pendingMissing = false ∧
    (R.v.state.loadingVersion = none ∨ R.v.state.loadingVersion = some R.newVer) := by
  unfold reconcile at hrec
  simp only [Bool.or_eq_false_iff, Bool.and_eq_false_iff] at hrec
  obtain ⟨⟨⟨⟨hflag, hdis⟩, hold⟩, hpend⟩, hload⟩ := hrec
  refine ⟨hflag, fun h => ?_, fun h => ?_, hpend, ?_⟩
  · rcases hdis with hdis | hdis
    · simp [h] at hdis
    · exact hdis
  · rw [R.oldMissing_iff.mpr h] at hold
    simp at hold
  · rcases hload with hload | hload
    · exact .inl (Option.isSome_eq_false_iff.mp hload |> Option.isNone_iff_eq_none.mp)
    · exact .inr (R.matching_loading (by simpa using hload))

include hmode hgood hrev hrec in
/-- None of the marks is there, so the index is exact. -/
theorem exact_of_unflagged : Exact R.w R.v := by
  obtain ⟨hflag, hdis, hlost, hpend, hload⟩ := reconcile_false hrec
  refine hgood.index.resolve_left ?_
  rintro (h | h | h | ⟨n, hn, hcard, hfwd⟩)
  · unfold ModeKnown at hmode
    rw [if_pos hrev, hdis hrev] at hmode
    rw [h] at hmode
    simp at hmode
  · simp [hflag] at h
  · exact hlost h
  · have hnew : n = R.newVer := by
      rcases hload with hload | hload
      · simp [hload] at hn
      · simpa [hload] using hn.symm
    subst hnew
    have hmatch : R.matchingLoad = true := by
      unfold matchingLoad
      exact decide_eq_true hn
    have hcard' : 0 < R.state.loadingCardinality.getD (R.state.loadingSize.getD 0) := hcard
    have : R.pendingMissing = true := by
      unfold pendingMissing
      simp [hmatch, hcard', hfwd]
    simp [this] at hpend

include hrecovers hrev hrec in
/-- A load that starts afresh is not of the committed version. -/
theorem fresh_ne_version (hresume : R.resume = false) :
    R.newVer ≠ R.v.version ∧ R.v.state.loadingVersion = none := by
  obtain ⟨_, hdis, hlost, hpend, hload⟩ := reconcile_false hrec
  have hnone : R.v.state.loadingVersion = none := by
    refine hload.resolve_right fun h => ?_
    have hmatch : R.matchingLoad = true := by
      unfold matchingLoad
      exact decide_eq_true h
    simp [resume, hmatch, hpend] at hresume
  refine ⟨fun h => ?_, hnone⟩
  rcases hrecovers h with ⟨_, hd⟩ | hl | hl
  · simp [hdis hrev] at hd
  · exact hl hnone
  · exact hlost hl

include hmode hgood hrecovers hrev hrec in
/-- A load whose diff has not begun is not of the committed version, and
the index is still the committed set. -/
theorem tag_eq_committed (hcursor : R.resume = true → R.v.state.diffPartition = none) :
    R.newVer ≠ R.v.version ∧ R.v.tag = R.v.committed := by
  have hexact := exact_of_unflagged hmode hgood hrev hrec
  by_cases hresume : R.resume = true
  · have hload := R.matching_loading (R.resume_matching hresume)
    have hne : R.newVer ≠ R.v.version := by
      intro h
      rw [h] at hload
      exact (hexact.reloaded hload).2 (hcursor hresume)
    exact ⟨hne, hexact.pending _ hload hne (hcursor hresume)⟩
  · have hresume : R.resume = false := by simpa using hresume
    obtain ⟨hne, hnone⟩ := fresh_ne_version hrecovers hrev hrec hresume
    exact ⟨hne, hexact.idle hnone⟩

end

/-- The set the diff compares with, in terms of the view. -/
theorem old_eq_committed (h : R.newVer ≠ R.v.version) : R.old = R.v.committed := by
  unfold old oldVer ListView.committed
  have hver : R.state.version = R.v.version := rfl
  rw [hver]
  by_cases hempty : R.v.version = ""
  · simp [hempty]
  · simp [hempty, h.symm]

theorem old_eq_empty (h : R.newVer = R.v.version) : R.old = ∅ := by
  unfold old oldVer
  have hver : R.state.version = R.v.version := rfl
  rw [hver]
  simp [h]

/-- The index is where the diff of a loaded version takes it up; a version
that is loaded again has its index already. -/
theorem diffAt_loaded (hmode : R.ModeKnown) (hgood : Good R.w R.v) (hrecovers : R.Recovers)
    (hrev : R.w.config.enableReverseIndex = true) (hrec : R.reconcile = false)
    {checkpoint cursor : Nat} {u : ListView} (hu : R.Loaded checkpoint cursor u) :
    DiffAt (R.w.partOf (R.w.partitionCount R.old.card (u.fwd R.newVer).card)) R.old
        (u.fwd R.newVer) cursor R.v.tag ∧
      (R.newVer = R.v.version → R.v.tag = u.fwd R.newVer) := by
  have hzero : (R.resume = true → R.v.state.diffPartition = none) →
      DiffAt (R.w.partOf (R.w.partitionCount R.old.card (u.fwd R.newVer).card)) R.old
        (u.fwd R.newVer) 0 R.v.tag ∧ (R.newVer = R.v.version → R.v.tag = u.fwd R.newVer) := by
    intro hcursor
    obtain ⟨hne, htag⟩ := tag_eq_committed hmode hgood hrecovers hrev hrec hcursor
    rw [old_eq_committed hne, htag]
    exact ⟨.zero Set.left_mem_uIcc, fun h => absurd h hne⟩
  cases hu with
  | skipped hcursor => exact hzero hcursor
  | streamed hcursor => exact hzero hcursor
  | resumed cursor hresume hcursor =>
    have hexact := exact_of_unflagged hmode hgood hrev hrec
    have hload := R.matching_loading (R.resume_matching hresume)
    have hstarted : R.started.fwd R.newVer = R.v.fwd R.newVer := by
      rw [started, if_pos hresume]
      rfl
    rw [hstarted]
    by_cases hne : R.newVer = R.v.version
    · rw [hne] at hload
      rw [old_eq_empty hne, hne, (hexact.reloaded hload).1]
      exact ⟨⟨Set.right_mem_uIcc, fun _ _ => Iff.rfl⟩, fun _ => rfl⟩
    · rw [old_eq_committed hne]
      exact ⟨hexact.diffing _ _ hload hne hcursor, fun h => absurd h hne⟩

theorem diffReady_of_good (hmode : R.ModeKnown) (hgood : Good R.w R.v) (hrecovers : R.Recovers) :
    R.DiffReady :=
  fun hrev hrec _ _ _ hu _ => (diffAt_loaded hmode hgood hrecovers hrev hrec hu).1

/-! ## Where a reload may stop -/

section

variable (hmode : R.ModeKnown) (hgood : Good R.w R.v) (hrecovers : R.Recovers)
  {checkpoint cursor : Nat} {u v' : ListView}

include hmode in
theorem disabled_of_forwardOnly (h : R.w.config.enableReverseIndex = false) :
    R.v.state.reverseIndexDisabled = true := by
  unfold ModeKnown at hmode
  rwa [h, if_neg (by simp)] at hmode

include hmode hgood in
/-- Whatever made the reload rebuild the index, the planner sees it too. -/
theorem marked_recovers (hrec : R.reconcile = true) :
    R.v.state.loadingVersion ≠ none ∨ R.v.state.reverseIndexDisabled = true ∨ R.v.Lost := by
  unfold reconcile at hrec
  simp only [Bool.or_eq_true, Bool.and_eq_true] at hrec
  rcases hrec with (((hflag | ⟨hrev, hdis⟩) | hold) | hpend) | ⟨hload, _⟩
  · exact hgood.recovers hflag
  · unfold ModeKnown at hmode
    rw [if_pos hrev] at hmode
    exact .inr (.inl (hmode ▸ hdis))
  · exact .inr (.inr (R.oldMissing_iff.mp hold))
  · unfold pendingMissing at hpend
    simp only [Bool.and_eq_true] at hpend
    refine .inl ?_
    rw [R.matching_loading hpend.1.1]
    simp
  · refine .inl fun hnone => ?_
    have hsome : R.v.state.loadingVersion.isSome = true := hload
    simp [hnone] at hsome

theorem marked_eq (hrec : R.reconcile = false) : R.marked = R.v.state := by
  have hflag := (reconcile_false hrec).1
  rw [marked, hrec, ← hflag]

include hmode hgood hrecovers in
/-- Before the load markers are written; `fwd` differs from the view's sets
at most in that the new version's set has been deleted. -/
theorem good_marked {fwd : String → Finset String}
    (hsame : R.resume = true → fwd = R.v.fwd)
    (hfwd : ∀ ver, ver ≠ R.newVer → fwd ver = R.v.fwd ver)
    (hempty : R.v.fwd R.newVer = ∅ → fwd R.newVer = ∅) :
    Good R.w ⟨R.marked, fwd, R.v.tok, R.v.tag⟩ := by
  have hlost : R.v.Lost → ListView.Lost ⟨R.marked, fwd, R.v.tok, R.v.tag⟩ := by
    rintro ⟨hver, hcard, hgone⟩
    refine ⟨hver, hcard, ?_⟩
    by_cases h : R.v.version = R.newVer
    · rw [h] at hgone
      exact (congrArg fwd h).trans (hempty hgone)
    · exact (hfwd _ h).trans hgone
  by_cases hrec : R.reconcile = true
  · refine ⟨hgood.idle, hgood.tagged, fun _ => ?_, .inl (.inr (.inl hrec))⟩
    exact (marked_recovers hmode hgood hrec).imp_right (·.imp_right hlost)
  · have hrec : R.reconcile = false := by simpa using hrec
    rw [marked_eq hrec] at hlost ⊢
    have hkeep : R.resume = true → (⟨R.v.state, fwd, R.v.tok, R.v.tag⟩ : ListView) = R.v := by
      intro h
      rw [hsame h]
    by_cases hresume : R.resume = true
    · rw [hkeep hresume]
      exact hgood
    · have hresume : R.resume = false := by simpa using hresume
      refine ⟨hgood.idle, hgood.tagged, fun h => (hgood.recovers h).imp_right (·.imp_right hlost),
        ?_⟩
      by_cases hrev : R.w.config.enableReverseIndex = true
      · obtain ⟨hne, hnone⟩ := fresh_ne_version hrecovers hrev hrec hresume
        have hexact := exact_of_unflagged hmode hgood hrev hrec
        have hcommitted : ListView.committed ⟨R.v.state, fwd, R.v.tok, R.v.tag⟩ =
            R.v.committed := by
          unfold ListView.committed
          have hver : ListView.version ⟨R.v.state, fwd, R.v.tok, R.v.tag⟩ = R.v.version := rfl
          simp only [hver, hfwd _ hne.symm]
        refine .inr ⟨fun _ => (hexact.idle hnone).trans (by rw [hcommitted]), ?_, ?_, ?_⟩
        all_goals simp [hnone]
      · have hrev : R.w.config.enableReverseIndex = false := by simpa using hrev
        exact .inl (.inl (disabled_of_forwardOnly hmode hrev))

include hmode hgood in
/-- While the load markers are there. -/
theorem good_pending {size card cur : Option Nat} {removal : Bool}
    (hstate : v'.state = R.pendingState size card cur removal)
    (hindex : R.w.config.enableReverseIndex = true → R.reconcile = false → Exact R.w v') :
    Good R.w v' := by
  have hload : v'.state.loadingVersion = some R.newVer := by rw [hstate]; rfl
  refine ⟨fun h => ?_, ?_, fun _ => .inl ?_, ?_⟩
  · simp [hload] at h
  · rw [hstate]
    exact hgood.tagged
  · simp [hload]
  · by_cases hrev : R.w.config.enableReverseIndex = true
    · by_cases hrec : R.reconcile = true
      · refine .inl (.inr (.inl ?_))
        rw [hstate]
        exact hrec
      · exact .inr (hindex hrev (by simpa using hrec))
    · have hrev : R.w.config.enableReverseIndex = false := by simpa using hrev
      refine .inl (.inl ?_)
      rw [hstate]
      exact disabled_of_forwardOnly hmode hrev

/-- The committed set, as a view sees it whose load markers have moved. -/
theorem committed_pending {size card cur : Option Nat} {removal : Bool}
    (hstate : v'.state = R.pendingState size card cur removal)
    (hfwd : ∀ ver, ver ≠ R.newVer → v'.fwd ver = R.v.fwd ver) (hne : R.newVer ≠ R.v.version) :
    v'.version = R.v.version ∧ v'.committed = R.v.committed := by
  have hver : v'.version = R.v.version := by
    unfold ListView.version
    rw [hstate]
    rfl
  refine ⟨hver, ?_⟩
  unfold ListView.committed
  rw [hver, hfwd _ hne.symm]

/-- An exact index while another version than the committed one is loaded. -/
theorem exact_pending {size card cur : Option Nat} {removal : Bool}
    (hstate : v'.state = R.pendingState size card cur removal)
    (hfwd : ∀ ver, ver ≠ R.newVer → v'.fwd ver = R.v.fwd ver) (hne : R.newVer ≠ R.v.version)
    (hpending : cur = none → v'.tag = R.v.committed)
    (hdiffing : ∀ j, cur = some j →
      DiffAt (R.w.partOf (R.w.partitionCount R.v.committed.card (v'.fwd R.newVer).card))
        R.v.committed (v'.fwd R.newVer) j v'.tag) : Exact R.w v' := by
  obtain ⟨hver, hcommitted⟩ := committed_pending hstate hfwd hne
  have hload : v'.state.loadingVersion = some R.newVer := by rw [hstate]; rfl
  have hcur : v'.state.diffPartition = cur := by rw [hstate]; rfl
  refine ⟨fun h => ?_, fun n hn _ h => ?_, fun n j hn _ h => ?_, fun h => ?_⟩
  · simp [hload] at h
  · rw [hcommitted]
    exact hpending (hcur ▸ h)
  · obtain rfl : n = R.newVer := by simpa [hload] using hn.symm
    rw [hcommitted]
    exact hdiffing j (hcur ▸ h)
  · rw [hload, hver] at h
    exact absurd (Option.some.inj h) hne

/-- An exact index while the committed version is loaded again. -/
theorem exact_reloading {size card : Option Nat} {j : Nat} {removal : Bool}
    (hstate : v'.state = R.pendingState size card (some j) removal)
    (heq : R.newVer = R.v.version) (htag : v'.tag = v'.fwd R.newVer) : Exact R.w v' := by
  have hver : v'.version = R.newVer := by
    unfold ListView.version
    rw [hstate, heq]
    rfl
  have hload : v'.state.loadingVersion = some R.newVer := by rw [hstate]; rfl
  have hcur : v'.state.diffPartition = some j := by rw [hstate]; rfl
  refine ⟨fun h => ?_, fun n hn hne => ?_, fun n j hn hne => ?_, fun _ => ⟨?_, ?_⟩⟩
  · simp [hload] at h
  · exact absurd (by simpa [hload, hver] using hn.symm) hne
  · exact absurd (by simpa [hload, hver] using hn.symm) hne
  · rw [hver]
    exact htag
  · simp [hcur]

/-- After the commit of a version whose markers are still there. -/
theorem good_committed (hu : R.Loaded checkpoint cursor u) (cursor' : Nat)
    (hdis : R.w.config.enableReverseIndex = false → R.v.state.reverseIndexDisabled = true) :
    Good R.w ((u.setTag (R.indexed u)).setState
      (R.committed { u.state with diffPartition := some cursor' } checkpoint
        (u.fwd R.newVer).card)) := by
  obtain ⟨size, card, removal, hstate⟩ := hu.state
  refine ⟨fun h => ?_, fun _ => rfl, fun _ => .inl ?_, ?_⟩
  · simp [committed, hstate, pendingState] at h
  · simp [committed, hstate, pendingState]
  · by_cases hrev : R.w.config.enableReverseIndex = true
    · have hload : (R.committed { u.state with diffPartition := some cursor' } checkpoint
          (u.fwd R.newVer).card).loadingVersion = some R.newVer := by
        rw [hstate]
        rfl
      refine .inr ⟨fun h => ?_, fun n hn hne => ?_, fun n j hn hne => ?_, fun _ => ⟨?_, ?_⟩⟩
      · simp [hload] at h
      · exact absurd (Option.some.inj (hn.symm.trans hload)) hne
      · exact absurd (Option.some.inj (hn.symm.trans hload)) hne
      · show R.indexed u = _
        rw [indexed, if_pos hrev]
        rfl
      · simp [committed]
    · refine .inl (.inl ?_)
      show u.state.reverseIndexDisabled = true
      rw [hstate]
      exact hdis (by simpa using hrev)

/-- After the commit, without markers. -/
theorem good_cleaned (h : StateHash) (checkpoint card : Nat) (disabled : Bool)
    (hdis : R.w.config.enableReverseIndex = false → disabled = true) :
    Good R.w ((u.setTag (R.indexed u)).setState
      { R.cleaned h checkpoint card with reverseIndexDisabled := disabled }) := by
  refine ⟨fun _ => ⟨rfl, rfl, rfl⟩, fun _ => rfl, fun h => absurd h (by simp [cleaned]), ?_⟩
  by_cases hrev : R.w.config.enableReverseIndex = true
  · refine .inr ⟨fun _ => ?_, ?_, ?_, ?_⟩
    · show R.indexed u = ((if R.newVer = "" then ∅ else u.fwd R.newVer : Finset String) : Set String)
      rw [indexed, if_pos hrev, if_neg newVer_ne_empty]
    all_goals simp [cleaned]
  · exact .inl (.inl (hdis (by simpa using hrev)))

include hmode hgood hrecovers in
/-- During the diff. -/
theorem exact_indexing (hrev : R.w.config.enableReverseIndex = true) (hrec : R.reconcile = false)
    (hu : R.Loaded checkpoint cursor u) {cursor' : Nat} {s : Set String}
    (hs : DiffAt (R.w.partOf (R.w.partitionCount R.old.card (u.fwd R.newVer).card)) R.old
      (u.fwd R.newVer) cursor' s ∧ (R.old = ∅ → s ∈ Set.uIcc R.v.tag (u.fwd R.newVer))) :
    Exact R.w (u.diffed s cursor') := by
  obtain ⟨size, card, removal, hstate⟩ := hu.state
  have hstate' : (u.diffed s cursor').state = R.pendingState size card (some cursor') removal := by
    show { u.state with diffPartition := some cursor' } = _
    rw [hstate]
    rfl
  by_cases hne : R.newVer = R.v.version
  · refine exact_reloading hstate' hne ?_
    have hmem := hs.2 (old_eq_empty hne)
    rw [(diffAt_loaded hmode hgood hrecovers hrev hrec hu).2 hne, Set.uIcc_self] at hmem
    exact hmem
  · refine exact_pending hstate' (fun ver hver => hu.fwd hver) hne (fun h => by simp at h) ?_
    intro j hj
    obtain rfl := Option.some.inj hj
    have hdiff := hs.1
    rw [old_eq_committed hne] at hdiff
    exact hdiff

include hmode hgood hrecovers in
/-- **A reload keeps the invariant** wherever it stops. -/
theorem good_exit (h : R.ReloadExit v') : Good R.w v' := by
  have hoff := disabled_of_forwardOnly hmode
  cases h with
  | unstarted => exact hgood
  | marked => exact good_marked hmode hgood hrecovers (fun _ => rfl) (fun _ _ => rfl) fun h => h
  | deleted hresume =>
    show Good R.w ⟨R.marked, Function.update R.v.fwd R.newVer ∅, R.v.tok, R.v.tag⟩
    refine good_marked hmode hgood hrecovers (fun h => ?_) (fun ver hver => ?_) fun _ => ?_
    · simp [hresume] at h
    · simp [Function.update_of_ne hver]
    · simp
  | renamed hresume =>
    have hstate : ((R.v.setFwd R.newVer ∅).setState R.renamed).state =
        R.pendingState (some 0) R.v.state.loadingCardinality R.v.state.diffPartition
          R.v.state.removalFanoutComplete := rfl
    refine good_pending hmode hgood hstate fun hrev hrec => ?_
    obtain ⟨hne, hnone⟩ := fresh_ne_version hrecovers hrev hrec hresume
    have hexact := exact_of_unflagged hmode hgood hrev hrec
    refine exact_pending hstate (fun ver hver => ?_) hne (fun _ => hexact.idle hnone) fun j hj => ?_
    · simp [Function.update_of_ne hver]
    · simp [(hgood.idle hnone).1] at hj
  | loading i j hij hcursor =>
    obtain ⟨size, card, removal, hstate⟩ := loadAt_state (R := R) (i := i) (j := j)
    have htag : (IdListSyncWorker.loadAt R.started R.newVer R.file R.start i j).tag = R.v.tag :=
      R.started_tag
    refine good_pending hmode hgood hstate fun hrev hrec => ?_
    by_cases hnone : R.resume = true → R.v.state.diffPartition = none
    · obtain ⟨hne, hcommitted⟩ := tag_eq_committed hmode hgood hrecovers hrev hrec hnone
      refine exact_pending hstate (fun ver hver => loadAt_fwd hver) hne
        (fun _ => htag.trans hcommitted) fun j hj => ?_
      split at hj
      · rename_i hresume
        simp [hnone hresume] at hj
      · simp at hj
    · -- Nothing of a load whose diff has begun is downloaded again.
      push Not at hnone
      have hj : j = 0 := by
        by_contra hj
        exact hnone.2 (hcursor (by omega) hnone.1)
      obtain rfl : i = 0 := by omega
      subst hj
      rw [IdListSyncWorker.loadAt_zero, started, if_pos hnone.1, marked_eq hrec]
      exact exact_of_unflagged hmode hgood hrev hrec
  | loaded checkpoint cursor u hu =>
    obtain ⟨size, card, removal, hstate⟩ := hu.state
    refine good_pending hmode hgood hstate fun hrev hrec => ?_
    have hdiff := (diffAt_loaded hmode hgood hrecovers hrev hrec hu).1
    have hexact := exact_indexing hmode hgood hrecovers hrev hrec hu
      ⟨hdiff, fun _ => Set.left_mem_uIcc⟩
    rwa [hu.diffed_self, ← hu.tag] at hexact
  | indexing checkpoint cursor cursor' u s hu hcount hs =>
    obtain ⟨size, card, removal, hstate⟩ := hu.state
    have hstate' : (u.diffed s cursor').state = R.pendingState size card (some cursor') removal := by
      show { u.state with diffPartition := some cursor' } = _
      rw [hstate]
      rfl
    refine good_pending hmode hgood hstate' fun hrev hrec => ?_
    unfold Indexing at hs
    rw [if_pos hrev] at hs
    exact exact_indexing hmode hgood hrecovers hrev hrec hu (hs.resolve_left (by simp [hrec]))
  | committed checkpoint cursor cursor' u hu hcount => exact good_committed hu cursor' hoff
  | cleaned checkpoint cursor u hu hcount =>
    obtain ⟨size, card, removal, hstate⟩ := hu.state
    have hsame : { R.cleaned u.state checkpoint (u.fwd R.newVer).card with
        reverseIndexDisabled := R.v.state.reverseIndexDisabled } =
        R.cleaned u.state checkpoint (u.fwd R.newVer).card := by
      rw [hstate]
      rfl
    rw [← hsame]
    exact good_cleaned _ _ _ _ hoff
  | finished checkpoint cursor u hu hcount =>
    refine good_cleaned _ _ _ _ fun hrev => ?_
    obtain ⟨size, card, removal, hstate⟩ := hu.state
    rw [hrev, hstate]
    exact hoff hrev

include hmode hgood in
/-- An interrupted repair has the marks it started with. -/
theorem good_repair (hrep : R.repairs) (h : R.RepairExit v') : Good R.w v' := by
  obtain ⟨hrev, hdis, hver, _, _, hload, _⟩ := hrep
  have hoff : R.v.state.reverseIndexDisabled = true := by
    unfold ModeKnown at hmode
    rw [if_pos hrev] at hmode
    exact hmode ▸ hdis
  have hnone : R.v.state.loadingVersion = none := hload
  cases h with
  | unstarted => exact hgood
  | rebuilding s => exact ⟨hgood.idle, hgood.tagged, fun _ => .inr (.inl hoff), .inl (.inl hoff)⟩
  | repaired =>
    refine ⟨hgood.idle, hgood.tagged, fun h => by simp at h, .inr ⟨fun _ => ?_, ?_, ?_, ?_⟩⟩
    · show (R.v.fwd R.v.version : Set String) =
        ((if R.v.version = "" then ∅ else R.v.fwd R.v.version : Finset String) : Set String)
      rw [if_neg (show R.v.version ≠ "" from hver)]
    all_goals simp [hnone]

/-- A completed reload commits the task's version, with the tag of its
file. -/
theorem version_reload (h : R.ReloadDone v') :
    v'.version = R.newVer ∧ v'.state.WellTagged := by
  obtain ⟨checkpoint, cursor, u, _, _, rfl⟩ := h
  exact ⟨rfl, fun _ => rfl⟩

theorem settled_reload (hrev : R.w.config.enableReverseIndex = true) (h : R.ReloadDone v') :
    Settled v' := by
  obtain ⟨checkpoint, cursor, u, _, _, rfl⟩ := h
  refine ⟨?_, rfl, rfl, rfl, rfl, rfl, by simp [final, hrev]⟩
  show R.indexed u = ((if R.newVer = "" then ∅ else u.fwd R.newVer : Finset String) : Set String)
  rw [indexed, if_pos hrev, if_neg newVer_ne_empty]

theorem countSound_reload (hrev : R.w.config.enableReverseIndex = true) (h : R.ReloadDone v') :
    v'.CountSound := by
  obtain ⟨checkpoint, cursor, u, _, _, rfl⟩ := h
  intro hzero
  have hcard : (u.fwd R.newVer).card = 0 := hzero
  show R.indexed u = ∅
  rw [indexed, if_pos hrev, Finset.card_eq_zero.mp hcard]
  simp

include hgood in
theorem settled_repair (hrep : R.repairs) (h : R.RepairDone v') : Settled v' := by
  obtain ⟨_, _, hver, _, _, hload, _⟩ := hrep
  obtain ⟨hdiff, hsize, hcard⟩ := hgood.idle hload
  subst h
  refine ⟨?_, hload, hsize, hcard, hdiff, rfl, rfl⟩
  show (R.v.fwd R.v.version : Set String) =
    ((if R.v.version = "" then ∅ else R.v.fwd R.v.version : Finset String) : Set String)
  rw [if_neg (show R.v.version ≠ "" from hver)]

end

end ReloadRun

end ForwardProxy.IdList
