/-
ForwardProxy.IdList.ResumeTheorems — a full reload that is interrupted and
resumed any number of times.

What a load leaves behind is a checkpoint (`loading_size`, with the
cardinality the pending set had there) and a set that is at the checkpoint
or ahead of it by the lines of one batch. Lines that are applied a second
time do no harm as long as the download continues to the end of the file,
so a set that lags (`Lag`) is enough to resume a download (`Checkpointed`).
Once the diff has begun nothing is downloaded again, and the set must be
the replay at the checkpoint (`Complete`).

The code takes two steps on trust (`TrustsRight`). A load that is resumed at
a checkpoint which already covers the task's size goes to the diff with
whatever the pending set holds; that is right if it is `CaughtUp`. And a
list with the marker of skipped reverse updates is not loaded at all if the
task is for the file and the size that are committed: its index is rebuilt
from the committed set, whatever version the task is for.
-/
import Mathlib.Logic.Relation
import ForwardProxy.IdList.Script
import ForwardProxy.IdList.TaskTheorems

namespace ForwardProxy.IdList

open Effect

/-! ## What a pending load says about its file -/

/-- A load that can be continued: its set lags the checkpoint, and so does
the empty set when no members were recorded. -/
structure Checkpointed (file : List UInt8) (size card : Option Nat) (s : Finset String) : Prop where
  boundary : Boundary file (size.getD 0)
  empty : card.getD (size.getD 0) = 0 → Lag file (size.getD 0) ∅
  lag : Lag file (size.getD 0) s

/-- A load that is complete: its set is the replay at the checkpoint. -/
structure Complete (file : List UInt8) (size card : Option Nat) (s : Finset String) : Prop where
  boundary : Boundary file (size.getD 0)
  replay_eq : s = replay (changes (file.take (size.getD 0)))
  empty : card.getD (size.getD 0) = 0 → s = ∅

theorem Checkpointed.grow {file file' : List UInt8} {size card : Option Nat} {s : Finset String}
    (h : Checkpointed file size card s) (hp : file <+: file') : Checkpointed file' size card s :=
  ⟨h.boundary.mono hp, fun hz => (h.empty hz).grow hp, h.lag.grow hp⟩

theorem Complete.grow {file file' : List UInt8} {size card : Option Nat} {s : Finset String}
    (h : Complete file size card s) (hp : file <+: file') : Complete file' size card s := by
  refine ⟨h.boundary.mono hp, ?_, h.empty⟩
  obtain ⟨tail, rfl⟩ := hp
  rw [List.take_append_of_le_length h.boundary.1]
  exact h.replay_eq

/-- The empty set describes the start of every file. -/
theorem lag_zero (file : List UInt8) : Lag file 0 ∅ := Lag.of_replay (Nat.zero_le file.length)

theorem checkpointed_zero (file : List UInt8) : Checkpointed file (some 0) none ∅ :=
  ⟨boundary_zero file, fun _ => lag_zero file, lag_zero file⟩

/-- What holds of a list while `ver` is loaded from `file`, however often
the load was interrupted. -/
structure Resumable (w : IdListSyncWorker) (ver : String) (file : List UInt8) (v : ListView) :
    Prop where
  good : Good w v
  target : ∀ n, v.state.loadingVersion = some n → n = ver
  counted : v.state.loadingVersion = some ver → v.state.loadingCardinality = none →
    v.state.loadingSize.getD 0 = 0
  loading : v.state.loadingVersion = some ver → v.state.diffPartition = none →
    v.PendingLost ∨ Checkpointed file v.state.loadingSize v.state.loadingCardinality (v.fwd ver)
  loaded : v.state.loadingVersion = some ver → v.state.diffPartition ≠ none →
    v.PendingLost ∨ Complete file v.state.loadingSize v.state.loadingCardinality (v.fwd ver)

theorem Resumable.grow {w : IdListSyncWorker} {ver : String} {file file' : List UInt8}
    {v : ListView} (h : Resumable w ver file v) (hp : file <+: file') : Resumable w ver file' v :=
  ⟨h.good, h.target, h.counted, fun hl hd => (h.loading hl hd).imp_right (·.grow hp),
    fun hl hd => (h.loaded hl hd).imp_right (·.grow hp)⟩

/-- A list whose index is its committed set, with no load pending. It may
carry the marker of skipped reverse updates. -/
structure Unloaded (v : ListView) : Prop where
  index : v.tag = v.committed
  loadingVersion : v.state.loadingVersion = none
  loadingSize : v.state.loadingSize = none
  loadingCardinality : v.state.loadingCardinality = none
  diffPartition : v.state.diffPartition = none
  reconcileRequired : v.state.reconcileRequired = false

theorem Settled.unloaded {v : ListView} (h : Settled v) : Unloaded v :=
  ⟨h.index, h.loadingVersion, h.loadingSize, h.loadingCardinality, h.diffPartition,
    h.reconcileRequired⟩

/-- Such a list may start to load any version. -/
theorem Unloaded.resumable {v : ListView} (h : Unloaded v) (w : IdListSyncWorker)
    (htagged : v.state.WellTagged) (ver : String) (file : List UInt8) : Resumable w ver file v := by
  have hexact : Exact w v := by
    refine ⟨fun _ => h.index, ?_, ?_, ?_⟩
    all_goals simp [h.loadingVersion]
  have hgood : Good w v := by
    refine ⟨fun _ => ⟨h.diffPartition, h.loadingSize, h.loadingCardinality⟩, htagged, ?_, .inr hexact⟩
    simp [h.reconcileRequired]
  refine ⟨hgood, ?_, ?_, ?_, ?_⟩
  all_goals simp [h.loadingVersion]

/-! ## One execution -/

/-- The pending set and its recorded cardinality are those of the file at
the checkpoint, if the load is resumed where its download is skipped. -/
def CaughtUp (v : ListView) (md : TaskMetadata) (file : List UInt8) : Prop :=
  v.state.loadingVersion = some md.versionTag → v.state.diffPartition = none → ¬ v.PendingLost →
    md.size ≤ v.state.loadingSize.getD 0 →
      v.fwd md.versionTag = replay (changes (file.take (v.state.loadingSize.getD 0))) ∧
        v.state.loadingCardinality.getD 0 = (v.fwd md.versionTag).card

/-- The committed set counts as it should, and the task is for the file and
the size that are committed: the index is rebuilt from it, and nothing is
committed. -/
structure RepairsInPlace (v : ListView) (md : TaskMetadata) : Prop where
  marked : v.state.reverseIndexDisabled = true
  committed : v.version ≠ ""
  fileId : v.state.fileId.getD "" = md.fileId
  size : v.state.size.getD 0 = md.size
  idle : v.state.loadingVersion = none
  counted : v.state.cardinality = some (v.fwd v.version).card

/-- An execution takes nothing on trust that is not so: a load whose download
is skipped is caught up, and a set that is indexed as it stands is that of
the version to load. -/
structure TrustsRight (v : ListView) (md : TaskMetadata) (file : List UInt8) : Prop where
  caughtUp : CaughtUp v md file
  repaired : RepairsInPlace v md → v.version = md.versionTag ∧
    v.fwd v.version = replay (changes (file.take (v.state.size.getD 0)))

namespace ReloadRun

variable {R : ReloadRun}

theorem pendingMissing_iff (h : R.v.state.loadingVersion = some R.newVer) :
    R.pendingMissing = true ↔ R.v.PendingLost := by
  have hmatch : R.matchingLoad = true := by
    unfold matchingLoad
    exact decide_eq_true h
  unfold pendingMissing
  rw [hmatch, Bool.true_and, Bool.and_eq_true, decide_eq_true_iff, decide_eq_true_iff]
  constructor
  · intro hmiss
    exact ⟨R.newVer, h, hmiss⟩
  · rintro ⟨n, hn, hmiss⟩
    obtain rfl : n = R.newVer := Option.some.inj (hn.symm.trans h)
    exact hmiss

/-- A load that resumes is pending and its set is there. -/
theorem resume_iff : R.resume = true ↔
    R.v.state.loadingVersion = some R.newVer ∧ ¬ R.v.PendingLost := by
  constructor
  · intro h
    have hload := R.matching_loading (R.resume_matching h)
    refine ⟨hload, fun hlost => ?_⟩
    rw [resume, (pendingMissing_iff hload).mpr hlost] at h
    simp at h
  · rintro ⟨hload, hlost⟩
    have hmatch : R.matchingLoad = true := by
      unfold matchingLoad
      exact decide_eq_true hload
    have hmiss : R.pendingMissing = false := by
      by_contra hne
      exact hlost ((pendingMissing_iff hload).mp (by simpa using hne))
    simp [resume, hmatch, hmiss]

section

variable (hres : Resumable R.w R.newVer R.file R.v)

include hres in
/-- Where the download starts. -/
theorem checkpointed_started (hcursor : R.resume = true → R.v.state.diffPartition = none) :
    Checkpointed R.file R.started.state.loadingSize R.started.state.loadingCardinality
        (R.started.fwd R.newVer) ∧
      R.started.state.loadingSize.getD 0 = R.start := by
  by_cases hresume : R.resume = true
  · obtain ⟨hload, hlost⟩ := resume_iff.mp hresume
    have hcheck := (hres.loading hload (hcursor hresume)).resolve_left hlost
    rw [started, start, if_pos hresume, if_pos hresume]
    exact ⟨hcheck, rfl⟩
  · rw [started, start, if_neg hresume, if_neg hresume]
    have hempty : ((R.v.setFwd R.newVer ∅).setState R.initialized).fwd R.newVer = ∅ := by simp
    rw [hempty]
    exact ⟨checkpointed_zero R.file, rfl⟩

include hres in
theorem counted_started (h : R.started.state.loadingCardinality = none) :
    R.started.state.loadingSize.getD 0 = 0 := by
  by_cases hresume : R.resume = true
  · obtain ⟨hload, _⟩ := resume_iff.mp hresume
    rw [started, if_pos hresume] at h ⊢
    exact hres.counted hload h
  · rw [started, if_neg hresume]
    rfl

include hres in
/-- While the download runs. -/
theorem checkpointed_loadAt (hcursor : R.resume = true → R.v.state.diffPartition = none)
    {i j : Nat} (hij : i ≤ j) :
    Checkpointed R.file
      (IdListSyncWorker.loadState R.started R.newVer R.file R.start i).loadingSize
      (IdListSyncWorker.loadState R.started R.newVer R.file R.start i).loadingCardinality
      (IdListSyncWorker.fwdAt R.started R.newVer R.file R.start j) := by
  obtain ⟨hcheck, hstart⟩ := checkpointed_started hres hcursor
  have hb := hcheck.boundary
  have hlag := hcheck.lag
  rw [hstart] at hb hlag
  have hahead : ∀ k, Lag R.file (offsetAt R.file R.start k)
      (IdListSyncWorker.fwdAt R.started R.newVer R.file R.start k) := fun k => hlag.advance hb k
  unfold IdListSyncWorker.loadState
  split
  · have hle : R.started.state.loadingSize.getD 0 ≤ offsetAt R.file R.start j := by
      rw [hstart]
      exact offsetAt_mono R.file R.start (Nat.zero_le j) |> (offsetAt_zero R.file R.start ▸ ·)
    exact ⟨hcheck.boundary, hcheck.empty, (hahead j).anti hle⟩
  · refine ⟨hb.offsetAt i, fun hz => ?_, (hahead j).anti (offsetAt_mono R.file R.start hij)⟩
    have hnone : IdListSyncWorker.fwdAt R.started R.newVer R.file R.start i = ∅ :=
      Finset.card_eq_zero.mp hz
    exact hnone ▸ hahead i

variable {checkpoint cursor : Nat} {u v' : ListView}

include hres in
/-- **The diff works on a complete set**, and the checkpoint the commit
will write is the one it was completed at. -/
theorem Loaded.complete (hcaught : CaughtUp R.v R.md R.file)
    (hu : R.Loaded checkpoint cursor u) :
    Complete R.file u.state.loadingSize u.state.loadingCardinality (u.fwd R.newVer) ∧
      u.state.loadingSize.getD 0 = checkpoint ∧
      (u.state.loadingCardinality = none → u.state.loadingSize.getD 0 = 0) := by
  cases hu with
  | resumed cursor hresume hcursor =>
    obtain ⟨hload, hlost⟩ := resume_iff.mp hresume
    have hdiff : R.v.state.diffPartition ≠ none := by simp [hcursor]
    rw [started, start, if_pos hresume, if_pos hresume]
    exact ⟨(hres.loaded hload hdiff).resolve_left hlost, rfl, hres.counted hload⟩
  | skipped hcursor hsize =>
    by_cases hresume : R.resume = true
    · obtain ⟨hload, hlost⟩ := resume_iff.mp hresume
      have hcheck := (hres.loading hload (hcursor hresume)).resolve_left hlost
      have hle : R.md.size ≤ R.v.state.loadingSize.getD 0 := by
        rw [start, if_pos hresume] at hsize
        exact hsize
      obtain ⟨hfwd, hcard⟩ := hcaught hload (hcursor hresume) hlost hle
      have hempty : R.v.state.loadingCardinality.getD (R.v.state.loadingSize.getD 0) = 0 →
          R.v.fwd R.newVer = ∅ := by
        intro hz
        cases hc : R.v.state.loadingCardinality with
        | none =>
          rw [hc] at hcard
          exact Finset.card_eq_zero.mp hcard.symm
        | some c =>
          rw [hc] at hcard hz
          exact Finset.card_eq_zero.mp (hcard.symm.trans hz)
      rw [started, start, if_pos hresume, if_pos hresume]
      exact ⟨⟨hcheck.boundary, hfwd, hempty⟩, rfl, hres.counted hload⟩
    · rw [started, start, if_neg hresume, if_neg hresume]
      have hempty : (((R.v.setFwd R.newVer ∅).setState R.initialized).diffed
          ((R.v.setFwd R.newVer ∅).setState R.initialized).tag 0).fwd R.newVer = ∅ := by
        simp [ListView.diffed]
      rw [hempty]
      exact ⟨⟨boundary_zero R.file, rfl, fun _ => rfl⟩, rfl, fun _ => rfl⟩
  | streamed hcursor hsize hstart hend =>
    have hlines : R.lines ≠ 0 := by
      intro hz
      rw [hz, offsetAt_zero] at hend
      omega
    obtain ⟨hcheck, hst⟩ := checkpointed_started hres hcursor
    have hb := hcheck.boundary
    have hlag := hcheck.lag
    rw [hst] at hb hlag
    have hfwd : ((IdListSyncWorker.loadAt R.started R.newVer R.file R.start R.lines R.lines).diffed
        R.started.tag 0).fwd R.newVer =
        IdListSyncWorker.fwdAt R.started R.newVer R.file R.start R.lines := by
      simp [ListView.diffed, IdListSyncWorker.loadAt]
    have hreplay := (hlag.advance hb R.lines).eq_replay (changes_offsetAt_last hb)
    have hstate : ((IdListSyncWorker.loadAt R.started R.newVer R.file R.start R.lines
        R.lines).diffed R.started.tag 0).state =
        { R.started.state with
          loadingSize := some (offsetAt R.file R.start R.lines)
          loadingCardinality :=
            some (IdListSyncWorker.fwdAt R.started R.newVer R.file R.start R.lines).card
          diffPartition := some 0 } := by
      show { IdListSyncWorker.loadState R.started R.newVer R.file R.start R.lines with
        diffPartition := some 0 } = _
      rw [IdListSyncWorker.loadState, if_neg hlines]
    rw [hfwd, hstate]
    refine ⟨⟨hb.offsetAt _, hreplay, fun hz => Finset.card_eq_zero.mp hz⟩, rfl, fun h => ?_⟩
    simp at h

include hres in
/-- The views with the markers of a complete load. -/
theorem resumable_complete (hgood : Good R.w v') (hcaught : CaughtUp R.v R.md R.file)
    (hu : R.Loaded checkpoint cursor u)
    (hstate : v'.state.loadingVersion = u.state.loadingVersion ∧
      v'.state.loadingSize = u.state.loadingSize ∧
      v'.state.loadingCardinality = u.state.loadingCardinality ∧ v'.state.diffPartition ≠ none)
    (hfwd : v'.fwd = u.fwd) : Resumable R.w R.newVer R.file v' := by
  obtain ⟨hload, hsize, hcard, hdiff⟩ := hstate
  obtain ⟨size, card, removal, hu'⟩ := hu.state
  obtain ⟨hcomplete, _, hcounted⟩ := Loaded.complete hres hcaught hu
  have hload' : v'.state.loadingVersion = some R.newVer := by
    rw [hload, hu']
    rfl
  refine ⟨hgood, fun n hn => ?_, fun _ => ?_, fun _ h => absurd h hdiff, fun _ _ => .inr ?_⟩
  · exact Option.some.inj (hn.symm.trans hload')
  · rw [hsize, hcard]
    exact hcounted
  · rw [hsize, hcard, hfwd]
    exact hcomplete

/-- A view without load markers. -/
theorem resumable_idle {w : IdListSyncWorker} {ver : String} {file : List UInt8}
    (hgood : Good w v') (hload : v'.state.loadingVersion = none) : Resumable w ver file v' := by
  refine ⟨hgood, ?_, ?_, ?_, ?_⟩
  all_goals simp [hload]

/-- A pending load that does not resume has lost its set. -/
theorem pendingLost_of_fresh (hresume : R.resume = false)
    (hload : R.v.state.loadingVersion = some R.newVer) : R.v.PendingLost := by
  by_contra hlost
  have := resume_iff.mpr ⟨hload, hlost⟩
  simp [hresume] at this

include hres in
theorem resumable_renamed (hresume : R.resume = false)
    (hgood : Good R.w ((R.v.setFwd R.newVer ∅).setState R.renamed)) :
    Resumable R.w R.newVer R.file ((R.v.setFwd R.newVer ∅).setState R.renamed) := by
  have hempty : ((R.v.setFwd R.newVer ∅).setState R.renamed).fwd R.newVer = ∅ := by simp
  have htarget : ∀ n, ((R.v.setFwd R.newVer ∅).setState R.renamed).state.loadingVersion = some n →
      n = R.newVer := fun n hn => (Option.some.inj hn).symm
  cases hload : R.v.state.loadingVersion with
  | none =>
    obtain ⟨hdiff, _, hcard⟩ := hres.good.idle hload
    refine ⟨hgood, htarget, fun _ _ => rfl, fun _ _ => .inr ?_, fun _ h => ?_⟩
    · rw [hempty]
      show Checkpointed R.file (some 0) R.v.state.loadingCardinality ∅
      rw [hcard]
      exact checkpointed_zero R.file
    · exact absurd hdiff h
  | some n =>
    obtain rfl := hres.target n hload
    obtain ⟨n, hn, hpos, _⟩ := pendingLost_of_fresh hresume hload
    -- The stale cardinality still says that the set is missing.
    have hstale : 0 < R.v.state.loadingCardinality.getD 0 := by
      cases hcard : R.v.state.loadingCardinality with
      | none =>
        rw [hcard, Option.getD_none, hres.counted hload hcard] at hpos
        exact hpos
      | some c =>
        rw [hcard] at hpos
        exact hpos
    have hlost : ListView.PendingLost ((R.v.setFwd R.newVer ∅).setState R.renamed) :=
      ⟨R.newVer, rfl, hstale, hempty⟩
    exact ⟨hgood, htarget, fun _ _ => rfl, fun _ _ => .inl hlost, fun _ _ => .inl hlost⟩

include hres in
theorem resumable_loading {i j : Nat} (hij : i ≤ j)
    (hcursor : 0 < j → R.resume = true → R.v.state.diffPartition = none)
    (hgood : Good R.w (IdListSyncWorker.loadAt R.started R.newVer R.file R.start i j)) :
    Resumable R.w R.newVer R.file
      (IdListSyncWorker.loadAt R.started R.newVer R.file R.start i j) := by
  by_cases hnone : R.resume = true → R.v.state.diffPartition = none
  · obtain ⟨size, card, removal, hstate⟩ := loadAt_state (R := R) (i := i) (j := j)
    have hcheck := checkpointed_loadAt hres hnone hij
    have hfwd : (IdListSyncWorker.loadAt R.started R.newVer R.file R.start i j).fwd R.newVer =
        IdListSyncWorker.fwdAt R.started R.newVer R.file R.start j := by
      simp [IdListSyncWorker.loadAt]
    refine ⟨hgood, fun n hn => ?_, fun _ hcard => ?_, fun _ _ => .inr ?_, fun _ h => ?_⟩
    · rw [hstate] at hn
      exact (Option.some.inj hn).symm
    · change (IdListSyncWorker.loadState R.started R.newVer R.file R.start i).loadingCardinality =
        none at hcard
      show (IdListSyncWorker.loadState R.started R.newVer R.file R.start i).loadingSize.getD 0 = 0
      unfold IdListSyncWorker.loadState at hcard ⊢
      by_cases hi : i = 0
      · rw [if_pos hi] at hcard ⊢
        exact counted_started hres hcard
      · rw [if_neg hi] at hcard
        simp at hcard
    · rw [hfwd]
      exact hcheck
    · rw [hstate] at h
      refine absurd ?_ h
      show (if R.resume then R.v.state.diffPartition else none) = none
      split
      · exact hnone ‹_›
      · rfl
  · push Not at hnone
    have hj : j = 0 := by
      by_contra hj
      exact hnone.2 (hcursor (by omega) hnone.1)
    obtain rfl : i = 0 := by omega
    subst hj
    rw [IdListSyncWorker.loadAt_zero] at hgood ⊢
    rw [started, if_pos hnone.1] at hgood ⊢
    exact ⟨hgood, hres.target, hres.counted, hres.loading, hres.loaded⟩

include hres in
/-- **An interrupted reload can be resumed**, wherever it stopped. -/
theorem resumable_exit (hmode : R.ModeKnown) (hrecovers : R.Recovers)
    (hcaught : CaughtUp R.v R.md R.file) (h : R.ReloadExit v') :
    Resumable R.w R.newVer R.file v' := by
  have hgood := good_exit hmode hres.good hrecovers h
  cases h with
  | unstarted => exact hres
  | marked => exact ⟨hgood, hres.target, hres.counted, hres.loading, hres.loaded⟩
  | deleted hresume =>
    have hempty : ((R.v.setFwd R.newVer ∅).setState R.marked).fwd R.newVer = ∅ := by simp
    have hlost : R.v.state.loadingVersion = some R.newVer →
        ListView.PendingLost ((R.v.setFwd R.newVer ∅).setState R.marked) := by
      intro hload
      obtain ⟨n, hn, hpos, _⟩ := pendingLost_of_fresh hresume hload
      exact ⟨R.newVer, hload, hpos, hempty⟩
    exact ⟨hgood, hres.target, hres.counted, fun hl _ => .inl (hlost hl),
      fun hl _ => .inl (hlost hl)⟩
  | renamed hresume => exact resumable_renamed hres hresume hgood
  | loading i j hij hcursor => exact resumable_loading hres hij hcursor hgood
  | loaded checkpoint cursor u hu =>
    have hdiff : v'.state.diffPartition ≠ none := by simp [hu.cursor]
    exact resumable_complete hres hgood hcaught hu ⟨rfl, rfl, rfl, hdiff⟩ rfl
  | indexing checkpoint cursor cursor' u s hu hcount hs =>
    exact resumable_complete hres hgood hcaught hu ⟨rfl, rfl, rfl, by simp [ListView.diffed]⟩ rfl
  | committed checkpoint cursor cursor' u hu hcount =>
    exact resumable_complete hres hgood hcaught hu ⟨rfl, rfl, rfl, by simp [committed]⟩ rfl
  | cleaned checkpoint cursor u hu hcount => exact resumable_idle hgood rfl
  | finished checkpoint cursor u hu hcount => exact resumable_idle hgood rfl

/-- A repair in place leaves the committed set where it is. -/
theorem repairDone_frame (h : R.RepairDone v') : v'.version = R.v.version ∧ v'.fwd = R.v.fwd ∧
    v'.state.size = R.v.state.size := by
  rw [show v' = _ from h]
  exact ⟨rfl, rfl, rfl⟩

include hres in
/-- So can a repair in place, which loads nothing. -/
theorem resumable_repair (hmode : R.ModeKnown) (hrep : R.repairs) (h : R.RepairExit v') :
    Resumable R.w R.newVer R.file v' := by
  have hgood := good_repair hmode hres.good hrep h
  obtain ⟨_, _, _, _, _, hload, _⟩ := hrep
  cases h with
  | unstarted => exact hres
  | rebuilding s => exact resumable_idle hgood hload
  | repaired => exact resumable_idle hgood hload

end

end ReloadRun

/-! ## Runs towards one version -/

/-- The contents, and the file of the version that is loaded. -/
structure LoadWorld where
  db : Db
  file : List UInt8

/-- An execution that the planner resolves to a full reload of `ver`, from
an origin that serves the file. -/
structure ReloadExecution (w : IdListSyncWorker) (id : ListId) (ver : String) (world : LoadWorld)
    (md : TaskMetadata) (origin : String → List UInt8) (db' : Db)
    (o : Outcome WorkerError IdListSyncWorker.WorkerRunOutcome) : Prop where
  enabled : w.config.enableReverseIndex = true
  resolved : w.resolve world.db id = .ok (some (.fullReload, md))
  version : md.versionTag = ver
  serves : origin md.url = world.file
  exec : Exec (redis origin) (w.runClaimed id) world.db db' o

/-- One step towards `ver`; `P` is what is asked of an execution beyond
being one. -/
inductive LoadStep (w : IdListSyncWorker) (id : ListId) (ver : String)
    (P : LoadWorld → TaskMetadata → Prop) : LoadWorld → LoadWorld → Prop
  | grow (db : Db) {file file' : List UInt8} (h : file <+: file') :
      LoadStep w id ver P ⟨db, file⟩ ⟨db, file'⟩
  | task (db : Db) (file : List UInt8) (h : TaskMetaHash) :
      LoadStep w id ver P ⟨db, file⟩ ⟨db.setTaskMeta id h, file⟩
  /-- The pending forward set expires. -/
  | expire (db : Db) (file : List UInt8) (h : (db.state id).loadingVersion = some ver) :
      LoadStep w id ver P ⟨db, file⟩ ⟨db.setFwd id ver {}, file⟩
  /-- A worker execution, which may stop anywhere. -/
  | execution {world : LoadWorld} {db' : Db} (md : TaskMetadata) (origin : String → List UInt8)
      (o : Outcome WorkerError IdListSyncWorker.WorkerRunOutcome)
      (hrun : ReloadExecution w id ver world md origin db' o) (hP : P world md) :
      LoadStep w id ver P world ⟨db', world.file⟩

variable {w : IdListSyncWorker} {id : ListId} {ver : String} {origin : String → List UInt8}

/-- The invariant of such a run. -/
def LoadInv (w : IdListSyncWorker) (id : ListId) (ver : String) (world : LoadWorld) : Prop :=
  world.db.Ok ∧ Resumable w ver world.file (world.db.view id)

/-- What the claim asks of a completed reload. -/
structure Reloaded (id : ListId) (ver : String) (world : LoadWorld) : Prop where
  version : world.db.version id = ver
  index : world.db.tag id = world.db.committed id
  content : world.db.committed id =
    replay (changes (world.file.take ((world.db.state id).size.getD 0)))
  loadingVersion : (world.db.state id).loadingVersion = none
  loadingSize : (world.db.state id).loadingSize = none
  loadingCardinality : (world.db.state id).loadingCardinality = none
  diffPartition : (world.db.state id).diffPartition = none
  reconcileRequired : (world.db.state id).reconcileRequired = false

/-- One execution: it can be resumed, or it has loaded the version. -/
theorem wp_resumable {world : LoadWorld} {md : TaskMetadata} {db' : Db}
    {o : Outcome WorkerError IdListSyncWorker.WorkerRunOutcome}
    (hrun : ReloadExecution w id ver world md origin db' o)
    (htrusts : TrustsRight (world.db.view id) md world.file)
    (hres : Resumable w ver world.file (world.db.view id)) :
    Resumable w ver world.file (db'.view id) ∧
      (∀ a, o = .ok a → Settled (db'.view id) ∧ (db'.view id).version = ver ∧
        (db'.view id).fwd ver =
          replay (changes (world.file.take ((db'.view id).state.size.getD 0)))) := by
  obtain ⟨hrev, hplan, rfl, hserves, he⟩ := hrun
  have hview : w.marked (world.db.view id) = world.db.view id := if_pos hrev
  have hmode : (w.reloadRun (world.db.view id) md (origin md.url)).ModeKnown :=
    w.modeKnown_reloadRun (origin md.url)
  have hrecovers := w.recovers_of_resolve hplan hres.good.tagged (origin md.url)
  have hresR : Resumable w md.versionTag (origin md.url) (w.marked (world.db.view id)) := by
    rw [hview, hserves]
    exact hres
  have hcaughtR : CaughtUp (w.marked (world.db.view id)) md (origin md.url) := by
    rw [hview, hserves]
    exact htrusts.caughtUp
  have hready := ReloadRun.diffReady_of_good hmode hresR.good hrecovers
  have hinplace : (w.reloadRun (world.db.view id) md (origin md.url)).repairs →
      RepairsInPlace (world.db.view id) md := by
    rintro ⟨_, hmarked, hcommitted, hfile, hsize, hidle, hcounted⟩
    rw [w.reloadRun_state] at hcommitted hfile hsize hidle hcounted
    have hset : (w.reloadRun (world.db.view id) md (origin md.url)).v.fwd =
        (world.db.view id).fwd := congrArg ListView.fwd hview
    rw [hset] at hcounted
    exact ⟨hmarked, hcommitted, hfile, hsize, hidle, hcounted⟩
  have hwp : Wp (redis origin) (w.runClaimed id)
      (fun _ t => Resumable w md.versionTag world.file (t.view id) ∧ Settled (t.view id) ∧
        (t.view id).version = md.versionTag ∧ (t.view id).fwd md.versionTag =
          replay (changes (world.file.take ((t.view id).state.size.getD 0))))
      (fun t => Resumable w md.versionTag world.file (t.view id)) world.db := by
    refine w.wp_runClaimed hres (fun h => absurd hplan (h _)) fun action md' hplan' => ?_
    obtain ⟨rfl, hmd⟩ : action = .fullReload ∧ md = md' := by
      simpa [hplan, eq_comm] using hplan'
    subst hmd
    refine (wp_of_view (w.wp_runReload hready)).mono ?_ ?_
    · rintro _ t (⟨hrep, hdone⟩ | hdone)
      · have hsettled := ReloadRun.settled_repair hresR.good hrep hdone
        obtain ⟨hver, hset⟩ := htrusts.repaired (hinplace hrep)
        obtain ⟨hver', hfwd', hsize'⟩ := ReloadRun.repairDone_frame hdone
        rw [show (w.reloadRun (world.db.view id) md (origin md.url)).v = world.db.view id from
          hview] at hver' hfwd' hsize'
        refine ⟨?_, hsettled, hver'.trans hver, ?_⟩
        · rw [← hserves]
          exact ReloadRun.resumable_repair hresR hmode hrep (hdone ▸ .repaired)
        · rw [hfwd', hsize', ← hver]
          exact hset
      · have hsettled := ReloadRun.settled_reload hrev hdone
        obtain ⟨checkpoint, cursor, u, hu, hcount, ht⟩ := hdone
        have hexit := ReloadRun.resumable_exit hresR hmode hrecovers hcaughtR
          (.finished checkpoint cursor u hu hcount)
        obtain ⟨hcomplete, hcp, _⟩ := ReloadRun.Loaded.complete hresR hcaughtR hu
        rw [ht] at hsettled ⊢
        refine ⟨?_, hsettled, rfl, ?_⟩
        · rw [← hserves]
          exact hexit
        · rw [← hserves]
          have hreplay := hcomplete.replay_eq
          rw [hcp] at hreplay
          exact hreplay
    · rintro t (ht | ⟨hrep, ht⟩ | hexit)
      · rw [ht]
        exact hres
      · rw [← hserves]
        exact ReloadRun.resumable_repair hresR hmode hrep ht
      · rw [← hserves]
        exact ReloadRun.resumable_exit hresR hmode hrecovers hcaughtR hexit
  refine ⟨hwp.always (fun _ _ h => h.1) he, fun a ha => ?_⟩
  subst ha
  exact (hwp.ok he).2

/-- The expiry of the pending set is seen, or there was nothing in it that
the checkpoint counts. -/
theorem resumable_expire {file : List UInt8} {v : ListView} (h : Resumable w ver file v)
    (hload : v.state.loadingVersion = some ver) : Resumable w ver file (v.setFwd ver ∅) := by
  have hempty : (v.setFwd ver ∅).fwd ver = ∅ := by simp
  by_cases hgone : v.fwd ver = ∅
  · have hsame : v.setFwd ver ∅ = v := by
      unfold ListView.setFwd
      rw [← hgone, Function.update_eq_self]
    rw [hsame]
    exact h
  -- A set with members that were not counted belongs to a load before its diff.
  have hlost : 0 < v.state.loadingCardinality.getD (v.state.loadingSize.getD 0) →
      (v.setFwd ver ∅).PendingLost := fun hpos => ⟨ver, hload, hpos, hempty⟩
  have hstays : v.PendingLost → (v.setFwd ver ∅).PendingLost := by
    rintro ⟨n, hn, hpos, _⟩
    obtain rfl := h.target n hn
    exact hlost hpos
  have hdiff : ¬ 0 < v.state.loadingCardinality.getD (v.state.loadingSize.getD 0) →
      v.state.diffPartition = none := by
    intro hz
    by_contra hne
    rcases h.loaded hload hne with hp | hc
    · obtain ⟨n, hn, hpos, _⟩ := hp
      exact hz hpos
    · exact hgone (hc.empty (by omega))
  have hgood : Good w (v.setFwd ver ∅) := by
    refine ⟨h.good.idle, h.good.tagged, fun _ => .inl (by simp [hload]), ?_⟩
    by_cases hpos : 0 < v.state.loadingCardinality.getD (v.state.loadingSize.getD 0)
    · exact .inl (.inr (.inr (.inr (hlost hpos))))
    · have hnone := hdiff hpos
      rcases h.good.index with hflag | hexact
      · refine .inl ?_
        rcases hflag with hf | hf | ⟨hver, hcard, hf⟩ | hf
        · exact .inl hf
        · exact .inr (.inl hf)
        · refine .inr (.inr (.inl ⟨hver, hcard, ?_⟩))
          show Function.update v.fwd ver ∅ v.version = ∅
          rw [Function.update_apply]
          split
          · rfl
          · exact hf
        · exact .inr (.inr (.inr (hstays hf)))
      · have hne : ver ≠ v.version := by
          intro heq
          rw [heq] at hload
          exact (hexact.reloaded hload).2 hnone
        have htag := hexact.pending ver hload hne hnone
        have hcommitted : (v.setFwd ver ∅).committed = v.committed := by
          unfold ListView.committed
          show (if v.version = "" then ∅ else Function.update v.fwd ver ∅ v.version) = _
          rw [Function.update_of_ne hne.symm]
        refine .inr ⟨fun hl => ?_, fun _ _ _ _ => ?_, fun n j _ _ hj => ?_, fun hl => ?_⟩
        · simp [hload] at hl
        · rw [hcommitted]
          exact htag
        · simp [hnone] at hj
        · exact absurd (Option.some.inj (hload.symm.trans hl)) hne
  refine ⟨hgood, h.target, h.counted, fun _ hnone => ?_, fun _ hne => ?_⟩
  · rw [hempty]
    by_cases hpos : 0 < v.state.loadingCardinality.getD (v.state.loadingSize.getD 0)
    · exact .inl (hlost hpos)
    · rcases h.loading hload hnone with hp | hc
      · exact .inl (hstays hp)
      · exact .inr ⟨hc.boundary, hc.empty, hc.empty (by omega)⟩
  · refine .inl (hlost ?_)
    by_contra hz
    exact hne (hdiff hz)

/-- The condition on the executions of a run. -/
def TrustsRightIn (id : ListId) (world : LoadWorld) (md : TaskMetadata) : Prop :=
  TrustsRight (world.db.view id) md world.file

theorem loadInv_step {world world' : LoadWorld} (h : LoadInv w id ver world)
    (hstep : LoadStep w id ver (TrustsRightIn id) world world') : LoadInv w id ver world' := by
  obtain ⟨hok, hres⟩ := h
  cases hstep with
  | grow db hgrow => exact ⟨hok, hres.grow hgrow⟩
  | task db file fields => exact ⟨hok.congr rfl rfl, hres⟩
  | expire db file hload =>
    refine ⟨hok.congr rfl rfl, ?_⟩
    show Resumable w ver file ((db.setFwd id ver {}).view id)
    rw [view_setFwd, if_pos rfl]
    exact resumable_expire hres hload
  | execution md origin o hrun htrusts =>
    exact ⟨(w.runClaimed_tidy hok hrun.exec).1, (wp_resumable hrun htrusts hres).1⟩

theorem load_inv {world₀ world : LoadWorld} (h₀ : LoadInv w id ver world₀)
    (hrun : Relation.ReflTransGen (LoadStep w id ver (TrustsRightIn id)) world₀ world) :
    LoadInv w id ver world := by
  induction hrun with
  | refl => exact h₀
  | tail _ hstep ih => exact loadInv_step ih hstep

/-- **An interrupted reload is resumed correctly**, in every run whose
executions trust what is so: whenever a reload of the version
completes, the version is committed, both indexes are the replay of the
file up to the committed size, and no marker is left. -/
theorem reload_resumes {db₀ : Db} {file₀ : List UInt8} (hok : db₀.Ok)
    (hstart : Unloaded (db₀.view id)) (htagged : (db₀.state id).WellTagged)
    {world : LoadWorld}
    (hrun : Relation.ReflTransGen (LoadStep w id ver (TrustsRightIn id)) ⟨db₀, file₀⟩ world)
    {md : TaskMetadata} {db' : Db} {a : IdListSyncWorker.WorkerRunOutcome}
    (hlast : ReloadExecution w id ver world md origin db' (.ok a))
    (htrusts : TrustsRightIn id world md) : Reloaded id ver ⟨db', world.file⟩ := by
  obtain ⟨hok', hres⟩ := load_inv ⟨hok, hstart.resumable w htagged ver file₀⟩ hrun
  obtain ⟨hsettled, hver, hfwd⟩ := (wp_resumable hlast htrusts hres).2 a rfl
  have hne : (db'.view id).version ≠ "" := by
    rw [hver, ← hlast.version]
    exact versionTag_ne_empty _
  have hcommitted : db'.committed id = (db'.view id).fwd ver := by
    rw [← hver]
    exact if_neg hne
  refine ⟨hver, ?_, ?_, hsettled.loadingVersion, hsettled.loadingSize, hsettled.loadingCardinality,
    hsettled.diffPartition, hsettled.reconcileRequired⟩
  · rw [← view_tag (w.runClaimed_tidy hok' hlast.exec).1 id]
    exact hsettled.index
  · rw [hcommitted, hfwd]
    rfl

/-! A load whose second batch is applied when the worker stops, and which
is resumed at the checkpoint of the first. If the task is for the whole
file, the download goes on from there. It stops once more, between the
commit and the removal of its markers. -/

/-- `+b`, `+c`, `-b`, `+a`. -/
def aheadFile : List UInt8 := [43, 98, 10, 43, 99, 10, 45, 98, 10, 43, 97, 10]

def wholeTask : TaskMetadata := ⟨.load, "F", 1, "u", 12⟩

def wholeStart : Db := Db.setTaskMeta {} smallList (loadMeta wholeTask.asIdListMetadata)

def wholeStopped : Db :=
  (scripted fun _ => aheadFile).after 13 ((smallWorker true).runClaimed smallList) wholeStart
    [.body ⟨[aheadFile], none⟩]

def wholeCommitted : Db :=
  (scripted fun _ => aheadFile).after 25 ((smallWorker true).runClaimed smallList) wholeStopped
    [.body ⟨[aheadFile.drop 6], none⟩, .pages [["c", "a"]]]

def wholeEnd : Db :=
  (scripted fun _ => aheadFile).after 100 ((smallWorker true).runClaimed smallList) wholeCommitted
    [.pages [["c", "a"]]]

theorem reload_resumes_load : Reloaded smallList "F@1" ⟨wholeEnd, aheadFile⟩ := by
  have hok : wholeStart.Ok := empty_ok.congr rfl rfl
  have hstart : Unloaded (wholeStart.view smallList) :=
    (IdListSyncWorker.settled_of_erased hok rfl rfl).unloaded
  have hfirst : ReloadExecution (smallWorker true) smallList "F@1" ⟨wholeStart, aheadFile⟩ wholeTask
      (fun _ => aheadFile) wholeStopped .stopped :=
    ⟨rfl, by decide +kernel, by decide +kernel, rfl,
      (scripted fun _ => aheadFile).after_sound (by decide +kernel)⟩
  have hsecond : ReloadExecution (smallWorker true) smallList "F@1" ⟨wholeStopped, aheadFile⟩
      wholeTask (fun _ => aheadFile) wholeCommitted .stopped :=
    ⟨rfl, by decide +kernel, by decide +kernel, rfl,
      (scripted fun _ => aheadFile).after_sound (by decide +kernel)⟩
  have hlast : ReloadExecution (smallWorker true) smallList "F@1" ⟨wholeCommitted, aheadFile⟩
      wholeTask (fun _ => aheadFile) wholeEnd (.ok (.completed .fullReload)) :=
    ⟨rfl, by decide +kernel, by decide +kernel, rfl,
      (scripted fun _ => aheadFile).after_sound (by decide +kernel)⟩
  have htrusts : ∀ db : Db, (db.state smallList).reverseIndexDisabled = false →
      ((db.state smallList).loadingSize.getD 0 < 12 ∨ (db.state smallList).diffPartition ≠ none) →
      TrustsRightIn smallList ⟨db, aheadFile⟩ wholeTask := by
    intro db hmark hload
    refine ⟨fun _ hdiff _ hsize => ?_, fun hrepairs => ?_⟩
    · rcases hload with hlt | hne
      · exact absurd hsize (Nat.not_le.mpr hlt)
      · exact absurd hdiff hne
    · exact absurd hrepairs.marked (by simp [Db.view, hmark])
  have hrun : Relation.ReflTransGen (LoadStep (smallWorker true) smallList "F@1"
      (TrustsRightIn smallList)) ⟨wholeStart, aheadFile⟩ ⟨wholeCommitted, aheadFile⟩ :=
    (Relation.ReflTransGen.single (.execution _ _ _ hfirst
      (htrusts _ rfl (.inl (by decide +kernel))))).tail
      (.execution _ _ _ hsecond (htrusts _ (by decide +kernel) (.inl (by decide +kernel))))
  exact reload_resumes hok hstart (fun h => absurd rfl h) hrun hlast
    (htrusts _ (by decide +kernel) (.inr (by decide +kernel)))

/-! If the task is for the first two lines only, the download is skipped. -/

def aheadTask : TaskMetadata := ⟨.load, "F", 1, "u", 6⟩

def aheadStart : Db := Db.setTaskMeta {} smallList (loadMeta aheadTask.asIdListMetadata)

/-- The second batch is in the pending set, its checkpoint is not written. -/
def aheadStopped : Db :=
  (scripted fun _ => aheadFile).after 13 ((smallWorker true).runClaimed smallList) aheadStart
    [.body ⟨[aheadFile], none⟩]

def aheadEnd : Db :=
  (scripted fun _ => aheadFile).after 100 ((smallWorker true).runClaimed smallList) aheadStopped
    [.pages [["c", "a"]]]

/-- Without the condition the committed set can be another one than the
file describes at the committed size. -/
theorem reload_resumes_ahead : ¬ ∀ (w : IdListSyncWorker) (id : ListId) (ver : String) (db₀ : Db)
    (file₀ : List UInt8), db₀.Ok → Unloaded (db₀.view id) → (db₀.state id).WellTagged →
    ∀ world, Relation.ReflTransGen (LoadStep w id ver fun _ _ => True) ⟨db₀, file₀⟩ world →
    ∀ md origin db' a, ReloadExecution w id ver world md origin db' (.ok a) →
      Reloaded id ver ⟨db', world.file⟩ := by
  intro hclaim
  have hok : aheadStart.Ok := empty_ok.congr rfl rfl
  have hfirst : ReloadExecution (smallWorker true) smallList "F@1" ⟨aheadStart, aheadFile⟩ aheadTask
      (fun _ => aheadFile) aheadStopped .stopped :=
    ⟨rfl, by decide +kernel, by decide +kernel, rfl,
      (scripted fun _ => aheadFile).after_sound (by decide +kernel)⟩
  have hlast : ReloadExecution (smallWorker true) smallList "F@1" ⟨aheadStopped, aheadFile⟩
      aheadTask (fun _ => aheadFile) aheadEnd (.ok (.completed .fullReload)) :=
    ⟨rfl, by decide +kernel, by decide +kernel, rfl,
      (scripted fun _ => aheadFile).after_sound (by decide +kernel)⟩
  have hdone := hclaim _ _ _ _ _ hok (IdListSyncWorker.settled_of_erased hok rfl rfl).unloaded
    (fun h => absurd rfl h) _ (.single (.execution _ _ _ hfirst trivial)) _ _ _ _ hlast
  have hcontent := hdone.content
  revert hcontent
  decide +kernel

/-! A list that is loaded, with the marker of skipped reverse updates. Its
next task is for a newer version of the same size. -/

def startA : { db : Db // db.MembersIn ["a"] } :=
  ⟨smallStart, (membersIn_empty _).congr (by simp [smallStart])⟩

def loadedA : { db : Db // db.MembersIn ["a"] } :=
  scannedAfter smallOrigin 100 ((smallWorker true).runClaimed smallList) startA
    [.body ⟨[[43, 97, 10]], none⟩, .pages [["a"]]]

def newerTask : TaskMetadata := ⟨.load, "F", 2, "u", 3⟩

def markedA : { db : Db // db.MembersIn ["a"] } :=
  ⟨(loadedA.1.setState smallList
    { loadedA.1.state smallList with reverseIndexDisabled := true }).setTaskMeta smallList
      (loadMeta newerTask.asIdListMetadata), loadedA.2.congr (by simp)⟩

def repairedA : { db : Db // db.MembersIn ["a"] } :=
  scannedAfter smallOrigin 100 ((smallWorker true).runClaimed smallList) markedA
    [.pages [["a"]], .pages [["a"]]]

theorem marked_runs :
    Exec (redis smallOrigin) ((smallWorker true).runClaimed smallList) startA.1 loadedA.1
      (.ok (.completed .fullReload)) ∧
    Exec (redis smallOrigin) ((smallWorker true).runClaimed smallList) markedA.1 repairedA.1
      (.ok (.completed .fullReload)) :=
  ⟨scannedAfter_exec (by decide +kernel), scannedAfter_exec (by decide +kernel)⟩

-- Evaluated by the kernel only.
attribute [irreducible] loadedA repairedA

theorem unloaded_markedA : markedA.1.Ok ∧ Unloaded (markedA.1.view smallList) := by
  have hok : smallStart.Ok := empty_ok.congr rfl rfl
  have hload : ReloadExecution (smallWorker true) smallList "F@1" ⟨smallStart, [43, 97, 10]⟩
      ⟨.load, "F", 1, "u", 3⟩ smallOrigin loadedA.1 (.ok (.completed .fullReload)) :=
    ⟨rfl, by decide +kernel, by decide +kernel, rfl, marked_runs.1⟩
  have hstart : Unloaded (smallStart.view smallList) :=
    (IdListSyncWorker.settled_of_erased hok rfl rfl).unloaded
  have hresumable := hstart.resumable (smallWorker true) (fun h => absurd rfl h) "F@1" [43, 97, 10]
  have htrusts : TrustsRight (smallStart.view smallList) ⟨.load, "F", 1, "u", 3⟩ [43, 97, 10] := by
    refine ⟨fun hload => ?_, fun hrepairs => ?_⟩
    · simp [smallStart, Db.view] at hload
    · exact absurd hrepairs.marked (by simp [smallStart, Db.view])
  have hsettled := ((wp_resumable hload htrusts hresumable).2 _ rfl).1
  refine ⟨((smallWorker true).runClaimed_tidy hok marked_runs.1).1.congr rfl rfl, ?_⟩
  exact ⟨hsettled.index, hsettled.loadingVersion, hsettled.loadingSize, hsettled.loadingCardinality,
    hsettled.diffPartition, hsettled.reconcileRequired⟩

/-- Nor is it enough that loads are caught up: the version of a list that is
repaired in place stays. -/
theorem reload_resumes_in_place : ¬ ∀ (w : IdListSyncWorker) (id : ListId) (ver : String) (db₀ : Db)
    (file₀ : List UInt8), db₀.Ok → Unloaded (db₀.view id) → (db₀.state id).WellTagged →
    ∀ md origin db' a, ReloadExecution w id ver ⟨db₀, file₀⟩ md origin db' (.ok a) →
      CaughtUp (db₀.view id) md file₀ → Reloaded id ver ⟨db', file₀⟩ := by
  intro hclaim
  obtain ⟨hok, hstart⟩ := unloaded_markedA
  have hlast : ReloadExecution (smallWorker true) smallList "F@2" ⟨markedA.1, [43, 97, 10]⟩
      newerTask smallOrigin repairedA.1 (.ok (.completed .fullReload)) :=
    ⟨rfl, by decide +kernel, by decide +kernel, rfl, marked_runs.2⟩
  have hidle : (markedA.1.state smallList).loadingVersion = none := by decide +kernel
  have hcaught : CaughtUp (markedA.1.view smallList) newerTask [43, 97, 10] := by
    intro hload
    exact absurd hload (by simp [Db.view, hidle])
  have htagged : (markedA.1.state smallList).WellTagged := fun _ => by decide +kernel
  have hversion := (hclaim _ _ _ _ _ hok hstart htagged _ _ _ _ hlast hcaught).version
  revert hversion
  decide +kernel

end ForwardProxy.IdList
