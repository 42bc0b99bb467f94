/-
ForwardProxy.IdList.RotationTheorems — file rotations after interrupted
deltas.

A delta writes the reverse index and the forward set with separate
commands, so one that stops between them leaves members on which the two
disagree. A rotation never looks at the index: it compares the old forward
set with the new one and sends the difference. It makes the index exact
if the index is, member by member, what the old forward set or the new
file says (`IndexBetween`); a member on which it agrees with neither stays
wrong.
-/
import Mathlib.Order.ConditionallyCompleteLattice.Basic
import Mathlib.Logic.Relation
import ForwardProxy.IdList.HistoryTheorems

namespace ForwardProxy.IdList

open Effect

/-- The set a fresh load of the task's file ends with: a task of size zero
downloads nothing. -/
def loadedSet (md : TaskMetadata) (file : List UInt8) : Finset String :=
  if md.size = 0 then ∅ else replay (changes file)

/-- The reload rebuilds the index, or the index of every member is what the
old forward set or the new file says. -/
def IndexBetween (db : Db) (id : ListId) (md : TaskMetadata) (file : List UInt8) : Prop :=
  (db.view id).Lost ∨ db.tag id ∈ Set.uIcc (db.committed id : Set String) (loadedSet md file)

/-- A list without load markers and flags. Nothing is said about its index
once a version is committed. -/
structure Idle (v : ListView) : Prop where
  loadingVersion : v.state.loadingVersion = none
  loadingSize : v.state.loadingSize = none
  loadingCardinality : v.state.loadingCardinality = none
  diffPartition : v.state.diffPartition = none
  reconcileRequired : v.state.reconcileRequired = false
  reverseIndexDisabled : v.state.reverseIndexDisabled = false
  tagged : v.state.WellTagged
  unborn : v.version = "" → v.tag = ∅

/-- One step of a history; `P` is what is asked of a full reload. -/
inductive RotationStep (P : Db → ListId → TaskMetadata → List UInt8 → Prop) : Db → Db → Prop
  | task (db : Db) (id : ListId) (h : TaskMetaHash) : RotationStep P db (db.setTaskMeta id h)
  /-- A delta, which may stop anywhere. -/
  | delta {db db' : Db} (w : IdListSyncWorker) (origin : String → List UInt8) (id : ListId)
      (md : TaskMetadata) (o : Outcome WorkerError IdListSyncWorker.WorkerRunOutcome)
      (hrev : w.config.enableReverseIndex = true)
      (hplan : w.resolve db id = .ok (some (.delta, md)))
      (he : Exec (redis origin) (w.runClaimed id) db db' o) : RotationStep P db db'
  | reload {db db' : Db} (w : IdListSyncWorker) (origin : String → List UInt8) (id : ListId)
      (md : TaskMetadata) (a : IdListSyncWorker.WorkerRunOutcome)
      (hrev : w.config.enableReverseIndex = true)
      (hplan : w.resolve db id = .ok (some (.fullReload, md))) (hP : P db id md (origin md.url))
      (he : Exec (redis origin) (w.runClaimed id) db db' (.ok a)) : RotationStep P db db'
  | remove {db db' : Db} (w : IdListSyncWorker) (origin : String → List UInt8) (id : ListId)
      (md : TaskMetadata) (a : IdListSyncWorker.WorkerRunOutcome)
      (hrev : w.config.enableReverseIndex = true)
      (hplan : w.resolve db id = .ok (some (.remove, md)))
      (he : Exec (redis origin) (w.runClaimed id) db db' (.ok a)) : RotationStep P db db'

/-! ## One execution -/

variable {w : IdListSyncWorker} {origin : String → List UInt8} {id : ListId} {db db' : Db}
  {md : TaskMetadata}

/-- An idle list with an exact index is settled. -/
theorem Idle.settled {v : ListView} (h : Idle v) (hindex : v.tag = v.committed) : Settled v :=
  ⟨hindex, h.loadingVersion, h.loadingSize, h.loadingCardinality, h.diffPartition,
    h.reconcileRequired, h.reverseIndexDisabled⟩

theorem Settled.idle {v : ListView} (h : Settled v) (htagged : v.state.WellTagged) : Idle v := by
  refine ⟨h.loadingVersion, h.loadingSize, h.loadingCardinality, h.diffPartition,
    h.reconcileRequired, h.reverseIndexDisabled, htagged, fun hver => ?_⟩
  have hindex := h.index
  unfold ListView.committed at hindex
  rw [if_pos hver] at hindex
  simpa using hindex

/-- However far a delta gets, it leaves the markers alone. -/
theorem idle_delta (hrev : w.config.enableReverseIndex = true)
    (hplan : w.resolve db id = .ok (some (.delta, md))) (h : Idle (db.view id))
    {o : Outcome WorkerError IdListSyncWorker.WorkerRunOutcome}
    (he : Exec (redis origin) (w.runClaimed id) db db' o) : Idle (db'.view id) := by
  have hver : (db.view id).version ≠ "" := (w.resolve_delta hplan).version
  have hframe : ∀ v', IdListSyncWorker.DeltaFrame (db.view id) (db.version id) v' → Idle v' := by
    rintro v' ⟨⟨size, card, hstate⟩, _, _⟩
    have hversion : v'.version = (db.view id).version := by
      unfold ListView.version
      rw [hstate]
    refine ⟨?_, ?_, ?_, ?_, ?_, ?_, ?_, fun h' => absurd (hversion.symm.trans h') hver⟩
    all_goals rw [hstate]
    · exact h.loadingVersion
    · exact h.loadingSize
    · exact h.loadingCardinality
    · exact h.diffPartition
    · exact h.reconcileRequired
    · exact h.reverseIndexDisabled
    · exact h.tagged
  have hwp : Wp (listRedis origin id)
      (w.runPlanned id (ListSyncState.fromHashFields (db.state id)) .delta md)
      (fun _ => Idle) Idle (db.view id) := by
    refine w.wp_markForwardOnly h ?_
    unfold IdListSyncWorker.marked
    rw [if_pos hrev]
    refine Wp.seq (w.wp_deltaFrame.mono (fun _ v' hv' => hframe v' hv'.1) hframe) ?_
    exact fun _ v' hv' => .pure hv' hv'
  exact (w.wp_planned hplan (wp_of_view hwp)).always (fun _ _ h => h) he

/-- A fresh load ends with the set of its file. -/
theorem ReloadRun.Loaded.loadedSet_eq {R : ReloadRun} {checkpoint cursor : Nat} {u : ListView}
    (hu : R.Loaded checkpoint cursor u) (hresume : R.resume = false) :
    cursor = 0 ∧ u.fwd R.newVer = loadedSet R.md R.file := by
  obtain ⟨_, hfwd⟩ := hu.replay_eq hresume
  have hstart : R.start = 0 := by
    unfold ReloadRun.start
    rw [hresume]
    rfl
  rw [hfwd]
  unfold loadedSet
  cases hu with
  | resumed _ h => simp [hresume] at h
  | skipped _ hsize =>
    rw [hstart] at hsize
    rw [if_pos (Nat.le_zero.mp hsize), hstart]
    exact ⟨rfl, rfl⟩
  | streamed _ hsize =>
    rw [hstart] at hsize ⊢
    rw [if_neg (Nat.pos_iff_ne_zero.mp hsize)]
    have hlines : R.lines = (linesFrom R.file 0).length := by
      unfold ReloadRun.lines
      rw [hstart]
    rw [hlines, changes_offsetAt_last (boundary_zero R.file)]
    exact ⟨rfl, rfl⟩

/-- The diff of a fresh load is sound where the index is between. -/
theorem diffReady_of_between (hok : db.Ok) (hrev : w.config.enableReverseIndex = true)
    (hplan : w.resolve db id = .ok (some (.fullReload, md))) (h : Idle (db.view id))
    (hbetween : md.fileId ≠ (db.state id).fileId.getD "" → db.version id ≠ "" →
      IndexBetween db id md (origin md.url)) :
    (w.reloadRun (db.view id) md (origin md.url)).DiffReady := by
  have hview : (w.reloadRun (db.view id) md (origin md.url)).v = db.view id := if_pos hrev
  have hrecovers := w.recovers_of_resolve hplan h.tagged (origin md.url)
  have hreason := w.resolve_fullReload hplan
  intro _ hrec checkpoint cursor u hu _
  obtain ⟨_, _, hlost, _, _⟩ := ReloadRun.reconcile_false hrec
  rw [hview] at hlost ⊢
  have hresume : (w.reloadRun (db.view id) md (origin md.url)).resume = false := by
    have hnone : (w.reloadRun (db.view id) md (origin md.url)).state.loadingVersion = none := by
      rw [w.reloadRun_state]
      exact h.loadingVersion
    simp [ReloadRun.resume, ReloadRun.matchingLoad, hnone]
  have hne : (w.reloadRun (db.view id) md (origin md.url)).newVer ≠
      (w.reloadRun (db.view id) md (origin md.url)).v.version := by
    intro hsame
    rcases hrecovers hsame with ⟨_, hdis⟩ | hload | hgone
    · exact absurd (h.reverseIndexDisabled.symm.trans hdis) (by simp)
    · rw [hview] at hload
      exact hload h.loadingVersion
    · rw [hview] at hgone
      exact hlost hgone
  obtain ⟨rfl, hset⟩ := hu.loadedSet_eq hresume
  rw [ReloadRun.old_eq_committed hne, hset, hview]
  refine .zero ?_
  by_cases hver : db.version id = ""
  · rw [h.unborn hver]
    have hcommitted : (db.view id).committed = ∅ := if_pos hver
    rw [hcommitted]
    simp
  · have hfile : md.fileId ≠ (db.state id).fileId.getD "" := by
      cases hreason with
      | initial hempty => exact absurd hempty hver
      | rotation hfile => exact hfile
      | reindex _ _ hdis => exact absurd (h.reverseIndexDisabled.symm.trans hdis) (by simp)
      | pending _ hload => exact absurd h.loadingVersion hload
      | lost _ hcard hmissing =>
        exact absurd (IdListSyncWorker.lost_of_forwardExists hver hcard hmissing) hlost
    have hmem := (hbetween hfile hver).resolve_left hlost
    rw [← view_tag hok id] at hmem
    exact hmem

theorem settled_rotation (hok : db.Ok) (hrev : w.config.enableReverseIndex = true)
    (hplan : w.resolve db id = .ok (some (.fullReload, md))) (h : Idle (db.view id))
    (hbetween : md.fileId ≠ (db.state id).fileId.getD "" → db.version id ≠ "" →
      IndexBetween db id md (origin md.url))
    {a : IdListSyncWorker.WorkerRunOutcome}
    (he : Exec (redis origin) (w.runClaimed id) db db' (.ok a)) :
    Settled (db'.view id) ∧ (db'.state id).WellTagged ∧ db'.version id = md.versionTag ∧
      (db'.view id).CountSound := by
  have hready := diffReady_of_between hok hrev hplan h hbetween
  have hview : Wp (listRedis origin id)
      (w.runPlanned id (ListSyncState.fromHashFields (db.state id)) .fullReload md)
      (fun _ v' => Settled v' ∧ v'.state.WellTagged ∧ v'.version = md.versionTag ∧ v'.CountSound)
      (fun _ => True) (db.view id) := by
    refine (w.wp_runReload hready).mono ?_ fun _ _ => trivial
    rintro _ v' (⟨hrep, _⟩ | hdone)
    · have hdis : (db.view id).state.reverseIndexDisabled = true := hrep.2.1
      simp [h.reverseIndexDisabled] at hdis
    · obtain ⟨hver, htagged⟩ := ReloadRun.version_reload hdone
      exact ⟨ReloadRun.settled_reload hrev hdone, htagged, hver,
        ReloadRun.countSound_reload hrev hdone⟩
  exact (w.wp_planned hplan (wp_of_view hview)).ok he

/-! ## Histories -/

/-- The invariant of a history. -/
def AllIdle (db : Db) : Prop := db.Ok ∧ ∀ id, Idle (db.view id)

/-- The rotations of a history find the index between the two files. -/
def RotatesBetween (db : Db) (id : ListId) (md : TaskMetadata) (file : List UInt8) : Prop :=
  md.fileId ≠ (db.state id).fileId.getD "" → db.version id ≠ "" → IndexBetween db id md file

theorem Idle.congr {v v' : ListView} (h : Idle v) (hstate : v'.state = v.state)
    (htag : v'.tag = v.tag) : Idle v' := by
  have hversion : v'.version = v.version := by
    unfold ListView.version
    rw [hstate]
  refine ⟨?_, ?_, ?_, ?_, ?_, ?_, ?_, fun hver => ?_⟩
  · rw [hstate]; exact h.loadingVersion
  · rw [hstate]; exact h.loadingSize
  · rw [hstate]; exact h.loadingCardinality
  · rw [hstate]; exact h.diffPartition
  · rw [hstate]; exact h.reconcileRequired
  · rw [hstate]; exact h.reverseIndexDisabled
  · rw [hstate]; exact h.tagged
  · rw [htag]; exact h.unborn (hversion.symm.trans hver)

theorem allIdle_execution (h : AllIdle db) {o : Outcome WorkerError IdListSyncWorker.WorkerRunOutcome}
    (he : Exec (redis origin) (w.runClaimed id) db db' o) (hown : Idle (db'.view id)) :
    AllIdle db' := by
  have htidy := w.runClaimed_tidy h.1 he
  refine ⟨htidy.1, fun j => ?_⟩
  by_cases hj : j = id
  · exact hj ▸ hown
  · obtain ⟨hstate, _, htag⟩ := htidy.other h.1 hj
    exact (h.2 j).congr hstate htag

theorem allIdle_step (h : AllIdle db) (hstep : RotationStep RotatesBetween db db') :
    AllIdle db' := by
  cases hstep with
  | task id fields => exact ⟨h.1.congr rfl rfl, h.2⟩
  | delta w origin id md o hrev hplan he =>
    exact allIdle_execution h he (idle_delta hrev hplan (h.2 id) he)
  | reload w origin id md a hrev hplan hP he =>
    obtain ⟨hsettled, htagged, _⟩ := settled_rotation h.1 hrev hplan (h.2 id) hP he
    exact allIdle_execution h he (hsettled.idle htagged)
  | remove w origin id md a hrev hplan he =>
    have hwp : Wp (redis origin)
        (w.runPlanned id (ListSyncState.fromHashFields (db.state id)) .remove md)
        (fun _ t => Settled (t.view id) ∧ t.state id = {}) (fun _ => True) db := by
      intro t o he'
      refine ⟨fun a ha => ?_, fun _ => trivial⟩
      subst ha
      exact w.settled_runRemove h.1 he'
    obtain ⟨hsettled, hstate⟩ := (w.wp_planned hplan hwp).ok he
    refine allIdle_execution h he (hsettled.idle fun hver => absurd ?_ hver)
    show (db'.state id).version.getD "" = ""
    rw [hstate]
    rfl

theorem rotation_idle (hrun : Relation.ReflTransGen (RotationStep RotatesBetween) {} db) :
    AllIdle db := by
  induction hrun with
  | refl =>
    exact ⟨empty_ok, fun _ => (IdListSyncWorker.settled_of_erased empty_ok rfl rfl).idle
      fun h => absurd rfl h⟩
  | tail _ hstep ih => exact allIdle_step ih hstep

/-- **A rotation leaves an exact index**, whatever deltas were interrupted
before it, in every history whose rotations find the index between the old
forward set and the new file. -/
theorem rotation_exact (hrun : Relation.ReflTransGen (RotationStep RotatesBetween) {} db)
    (hrev : w.config.enableReverseIndex = true)
    (hplan : w.resolve db id = .ok (some (.fullReload, md)))
    (hbetween : RotatesBetween db id md (origin md.url))
    {a : IdListSyncWorker.WorkerRunOutcome}
    (he : Exec (redis origin) (w.runClaimed id) db db' (.ok a)) :
    db'.version id = md.versionTag ∧ db'.tag id = db'.committed id := by
  obtain ⟨hok, hidle⟩ := rotation_idle hrun
  obtain ⟨hsettled, _, hver, _⟩ := settled_rotation hok hrev hplan (hidle id) hbetween he
  refine ⟨hver, ?_⟩
  rw [← view_tag (w.runClaimed_tidy hok he).1 id]
  exact hsettled.index

/-! The loaded list grows by the line `+b`, and the delta stops between the
two commands of that line: `b` carries the token and is not in the forward
set. Then the list rotates, to a file that adds `b`, or to one that does
not. -/

abbrev RotationDb := { db : Db // db.MembersIn ["a", "b", "c"] }

/-- The contents with a load task written. -/
def queuedLoad (db : RotationDb) (md : IdListMetadata) : RotationDb :=
  ⟨db.1.setTaskMeta smallList (loadMeta md), db.2.congr rfl⟩

def rotationStart : RotationDb := queuedLoad ⟨{}, membersIn_empty _⟩ ⟨"F", 1, "u", 3⟩

def rotationLoaded : RotationDb :=
  scannedAfter smallOrigin 100 ((smallWorker true).runClaimed smallList) rotationStart
    [.body ⟨[[43, 97, 10]], none⟩, .pages [["a"]]]

def appendedFile : String → List UInt8 := fun _ => [43, 97, 10, 43, 98, 10]

def deltaStopped : RotationDb :=
  scannedAfter appendedFile 8 ((smallWorker true).runClaimed smallList)
    (queuedLoad rotationLoaded ⟨"F", 1, "u", 6⟩) [.body ⟨[[43, 98, 10]], none⟩]

theorem rotation_runs :
    Exec (redis smallOrigin) ((smallWorker true).runClaimed smallList) rotationStart.1
      rotationLoaded.1 (.ok (.completed .fullReload)) ∧
    Exec (redis appendedFile) ((smallWorker true).runClaimed smallList)
      (queuedLoad rotationLoaded ⟨"F", 1, "u", 6⟩).1 deltaStopped.1 .stopped :=
  ⟨scannedAfter_exec (by decide +kernel), scannedAfter_exec (by decide +kernel)⟩

-- Evaluated by the kernel only.
attribute [irreducible] rotationLoaded deltaStopped

/-- The history up to the rotation task. -/
theorem reach_deltaStopped {P : Db → ListId → TaskMetadata → List UInt8 → Prop}
    (hP : P rotationStart.1 smallList ⟨.load, "F", 1, "u", 3⟩ (smallOrigin "u"))
    (md : IdListMetadata) :
    Relation.ReflTransGen (RotationStep P) {} (queuedLoad deltaStopped md).1 := by
  have hload : RotationStep P rotationStart.1 rotationLoaded.1 :=
    .reload _ smallOrigin _ ⟨.load, "F", 1, "u", 3⟩ _ rfl (by decide +kernel) hP rotation_runs.1
  have hdelta : RotationStep P (queuedLoad rotationLoaded ⟨"F", 1, "u", 6⟩).1 deltaStopped.1 :=
    .delta _ appendedFile _ ⟨.load, "F", 1, "u", 6⟩ _ rfl (by decide +kernel)
      rotation_runs.2
  exact .tail (.tail (.tail (.tail (.single (.task _ _ _)) hload) (.task _ _ _)) hdelta)
    (.task _ _ _)

def betweenTask : TaskMetadata := ⟨.load, "G", 2, "g", 6⟩

def betweenOrigin : String → List UInt8 := fun _ => [43, 98, 10, 43, 99, 10]

/-- The list after the rotation to the file that adds `b` and `c`. -/
def betweenEnd : RotationDb :=
  scannedAfter betweenOrigin 100 ((smallWorker true).runClaimed smallList)
    (queuedLoad deltaStopped betweenTask.asIdListMetadata)
    [.body ⟨[[43, 98, 10, 43, 99, 10]], none⟩, .pages [["a"]], .pages [["b", "c"]], .order ["a"]]

/-- `b` is in the new file, and no member is in both. -/
theorem index_between : IndexBetween (queuedLoad deltaStopped betweenTask.asIdListMetadata).1
    smallList betweenTask (betweenOrigin betweenTask.url) := by
  have hold : (queuedLoad deltaStopped betweenTask.asIdListMetadata).1.committed smallList = {"a"} := by
    decide +kernel
  have hnew : loadedSet betweenTask (betweenOrigin betweenTask.url) = {"b", "c"} := by decide +kernel
  refine .inr (mem_uIcc_iff.mpr fun m => ⟨?_, ?_⟩)
  · rw [hold, hnew]
    intro hm hm'
    simp only [Finset.coe_singleton, Set.mem_singleton_iff] at hm
    subst hm
    simp at hm'
  · rintro ⟨t, _, hmember⟩
    have hne : deltaStopped.1.member (smallList.skh, m) ≠ ∅ := Finset.ne_empty_of_mem hmember
    have hc : deltaStopped.1.member (smallList.skh, "c") = ∅ := by decide +kernel
    have hname : m ∈ ["a", "b", "c"] := deltaStopped.2 _ hne
    rw [hold, hnew]
    simp only [List.mem_cons, List.not_mem_nil, or_false] at hname
    rcases hname with rfl | rfl | rfl
    · exact .inl (by simp)
    · exact .inr (by simp)
    · exact absurd hc hne

/-- The interrupted delta does not show: `a` loses the token, `b` keeps it,
and `c` has it. -/
theorem rotation_exact_between : betweenEnd.1.version smallList = betweenTask.versionTag ∧
    betweenEnd.1.tag smallList = ({"b", "c"} : Finset String) := by
  have hfirst : RotatesBetween rotationStart.1 smallList ⟨.load, "F", 1, "u", 3⟩ (smallOrigin "u") :=
    fun _ hver => absurd rfl hver
  have he : Exec (redis betweenOrigin) ((smallWorker true).runClaimed smallList)
      (queuedLoad deltaStopped betweenTask.asIdListMetadata).1 betweenEnd.1
      (.ok (.completed .fullReload)) := scannedAfter_exec (by decide +kernel)
  obtain ⟨hver, htag⟩ := rotation_exact (reach_deltaStopped hfirst _) rfl (by decide +kernel)
    (fun _ _ => index_between) he
  have hcommitted : betweenEnd.1.committed smallList = {"b", "c"} := by decide +kernel
  rw [hcommitted] at htag
  exact ⟨hver, htag⟩

def outsideTask : TaskMetadata := ⟨.load, "G", 2, "g", 3⟩

def outsideOrigin : String → List UInt8 := fun _ => [43, 99, 10]

/-- The list after the rotation to the file that adds `c` only. -/
def outsideEnd : RotationDb :=
  scannedAfter outsideOrigin 100 ((smallWorker true).runClaimed smallList)
    (queuedLoad deltaStopped outsideTask.asIdListMetadata)
    [.body ⟨[[43, 99, 10]], none⟩, .pages [["a"]], .pages [["c"]], .order ["a"]]

/-- Without the condition a member of the old file can keep the token. -/
theorem rotation_after_stopped_delta : ¬ ∀ (w : IdListSyncWorker) (origin : String → List UInt8)
    (id : ListId) (md : TaskMetadata) (db db' : Db) (a : IdListSyncWorker.WorkerRunOutcome),
    Relation.ReflTransGen (RotationStep fun _ _ _ _ => True) {} db →
    w.config.enableReverseIndex = true → w.resolve db id = .ok (some (.fullReload, md)) →
    md.fileId ≠ (db.state id).fileId.getD "" →
    (db.state id).creationTime.getD 0 < md.creationTime →
    Exec (redis origin) (w.runClaimed id) db db' (.ok a) →
      db'.version id = md.versionTag ∧ db'.tag id = db'.committed id := by
  intro hclaim
  have he : Exec (redis outsideOrigin) ((smallWorker true).runClaimed smallList)
      (queuedLoad deltaStopped outsideTask.asIdListMetadata).1 outsideEnd.1
      (.ok (.completed .fullReload)) := scannedAfter_exec (by decide +kernel)
  have hdone := hclaim (smallWorker true) outsideOrigin smallList outsideTask _ _ _
    (reach_deltaStopped trivial _) rfl (by decide +kernel) (by decide +kernel) (by decide +kernel) he
  have hkept : "b" ∈ outsideEnd.1.tag smallList := ⟨1, by decide +kernel, by decide +kernel⟩
  rw [hdone.2] at hkept
  revert hkept
  show "b" ∈ outsideEnd.1.committed smallList → False
  decide +kernel

end ForwardProxy.IdList
