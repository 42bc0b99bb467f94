/-
ForwardProxy.IdList.RollbackTheorems — the committed file along a run.

The planner takes a different file only when its creation time is newer
than the stored one. That guard looks at one number, and a reload of the
committed file (after the loss of its forward set, after a change of the
index mode, or to finish a pending load) stores the creation time of
whatever manifest entry is current. As long as no such reload lowers the
number, it bounds every creation time the list ever committed
(`committed_le`), and the guard is a guard over the whole history.
-/
import Mathlib.Logic.Relation
import ForwardProxy.IdList.Script
import ForwardProxy.IdList.TaskTheorems

namespace ForwardProxy.IdList

open Effect

/-- What a commit says about the committed file. -/
structure CommittedFile where
  version : String
  fileId : String
  creationTime : Nat
  deriving DecidableEq

def StateHash.file (h : StateHash) : CommittedFile :=
  ⟨h.version.getD "", h.fileId.getD "", h.creationTime.getD 0⟩

def TaskMetadata.file (md : TaskMetadata) : CommittedFile :=
  ⟨md.versionTag, md.fileId, md.creationTime⟩

/-! ## One execution -/

/-- The state names the file `f`, or no file, or the file a task may
commit. -/
def Names (id : ListId) (target : Option TaskMetadata) (f : CommittedFile) (db : Db) : Prop :=
  (db.state id).file = f ∨ (db.state id).file.version = "" ∨
    ∃ md, target = some md ∧ (db.state id).file = md.file

variable {id : ListId} {target : Option TaskMetadata} {tok : Option Nat} {f : CommittedFile}
  {origin : String → List UInt8} {db db' : Db}

theorem Names.congr (h : Names id target f db) (hfile : (db'.state id).file = (db.state id).file) :
    Names id target f db' := by
  unfold Names
  rw [hfile]
  exact h

theorem file_setAll : ∀ (fs : List StateField) (h : StateHash),
    fs.all StateField.progress = true → (h.setAll fs).file = h.file := by
  intro fs
  induction fs with
  | nil =>
    intro h _
    rfl
  | cons field fs ih =>
    intro h hfs
    simp only [List.all_cons, Bool.and_eq_true] at hfs
    have hset : (h.set field).file = h.file := by
      cases field <;> first | rfl | simp [StateField.progress] at hfs
    exact (ih (h.set field) hfs.2).trans hset

theorem file_delAll : ∀ (names : List StateFieldName) (h : StateHash),
    (h.delAll names).file = h.file := by
  intro names
  induction names with
  | nil =>
    intro h
    rfl
  | cons name names ih =>
    intro h
    have hdel : (h.del name).file = h.file := by
      cases name <;> rfl
    exact (ih (h.del name)).trans hdel

theorem names_setState (h : StateHash)
    (hfile : h.file = (db.state id).file ∨ h.file.version = "" ∨
      ∃ md, target = some md ∧ h.file = md.file)
    (hnames : Names id target f db) : Names id target f (db.setState id h) := by
  have hstate : (db.setState id h).state id = h := by simp
  unfold Names
  rw [hstate]
  rcases hfile with hfile | hfile | hfile
  · rw [hfile]
    exact hnames
  · exact .inr (.inl hfile)
  · exact .inr (.inr hfile)

/-- A write of a task keeps the file, or commits the task's. -/
theorem names_write {wr : Write} (hwr : wr.OfTask id target tok) (h : Names id target f db) :
    Names id target f (wr.apply db) := by
  cases wr with
  | hsetState i fs =>
    obtain ⟨rfl, hfs | ⟨md, size, card, htarget, rfl⟩⟩ := hwr
    · exact names_setState _ (.inl (file_setAll fs _ hfs)) h
    · exact names_setState _ (.inr (.inr ⟨md, htarget, rfl⟩)) h
  | hdelState i names =>
    obtain rfl := hwr
    exact names_setState _ (.inl (file_delAll names _)) h
  | delState i => exact hwr.elim
  | _ => exact h

theorem names_follows {α : Type} {p : Redis α}
    (hp : p.Follows (taskProtocol id target) (fun _ => True) none) :
    Keeps (redis origin) (Names id target f) p :=
  task_follows names_write (fun h => h) hp

namespace IdListSyncWorker

variable (w : IdListSyncWorker) {md : TaskMetadata}

/-- A removal keeps the file until it deletes the state. -/
theorem names_applyRemove {state : ListSyncState} :
    Keeps (redis origin) (Names id none f) (w.applyRemove id state) := by
  have hissues : ∀ {α : Type} {p : Redis α} {tok : Option Nat}, p.Issues (Cmd.OfTask id none tok) →
      Keeps (redis origin) (Names id none f) p := by
    intro α p tok hp
    exact hp.keeps fun _ hc => task_keeps names_write hc
  have hcleanup : ∀ token, Keeps (redis origin) (Names id none f) (removeCleanup id state token) := by
    intro token
    rw [removeCleanup_eq]
    intro db hdb db' o he
    obtain ⟨k, _, rfl, _⟩ := exec_writes he
    have hkeep : Names id none f
        (((cleanupWrites id state token).take k).foldl Write.apply db) := by
      rcases @cleanup_stopped id state token db k with
        ⟨fwd, _, hview⟩ | ⟨_, _, hstate | hstate⟩
      · have hstate := congrArg ListView.state hview
        exact hdb.congr (congrArg StateHash.file hstate)
      · exact hdb.congr (congrArg StateHash.file hstate)
      · refine .inr (.inl ?_)
        rw [hstate]
        rfl
    exact ⟨fun _ _ => hkeep, fun _ => hkeep⟩
  refine .bind (.cmd fun a r b ha hstep => hstep.2 ▸ ha) fun h => ?_
  refine .bind (.cmd fun a r b ha hstep => hstep.2 ▸ ha) fun token => ?_
  refine .ite (.throw _) (.bind (.when ?_) fun _ => .bind (.when ?_) fun _ => hcleanup token)
  · exact .forEach (fun t => hissues (w.removeFanout_issues)) _
  · refine .cmd fun a r b ha hstep => ?_
    obtain rfl : b = (Write.hsetState id [.removalFanoutComplete]).apply a := hstep
    exact names_setState _ (.inl rfl) ha

theorem names_runPlanned {state : ListSyncState} {action : WorkerAction} :
    Keeps (redis origin) (Names id (action.commits md) f) (w.runPlanned id state action md) := by
  by_cases haction : action = .remove
  · subst haction
    have hmark : (w.markForwardOnly id).Follows (taskProtocol id none) (fun _ => True) none :=
      follows_of_issues w.markForwardOnly_issues
    exact .bind (names_follows hmark) fun _ => .bind w.names_applyRemove fun _ => .pure _
  · exact names_follows (w.runPlanned_follows haction)

/-- The committed set is indexed again as it stands, and nothing is
committed. -/
def repairsInPlace (db : Db) (id : ListId) (md : TaskMetadata) : Prop :=
  w.config.enableReverseIndex = true ∧ (db.state id).reverseIndexDisabled = true ∧
    db.version id ≠ "" ∧ (db.state id).fileId.getD "" = md.fileId ∧
    (db.state id).size.getD 0 = md.size ∧ (db.state id).loadingVersion = none ∧
    (db.state id).cardinality = some (db.fwd id (db.version id)).members.card

/-- A repair in place commits nothing. -/
theorem names_repair (h : w.repairsInPlace db id md) (hdb : Names id none f db) :
    Wp (redis origin)
      (w.runPlanned id (ListSyncState.fromHashFields (db.state id)) .fullReload md)
      (fun _ => Names id none f) (Names id none f) db := by
  have hrev := h.1
  refine Wp.seq (P := fun _ t => t = db) ?_ ?_
  · refine Wp.ite (fun _ => .pure hdb rfl) fun hne => absurd hrev hne
  · intro _ t ht
    subst ht
    let R : ReloadRun := ⟨w, t.view id, (t.state id).reverseIndexDisabled, md, origin md.url⟩
    have hrun : Wp (redis origin) (w.reconcileCommittedForward id
        (ListSyncState.fromHashFields (t.state id)) md) (fun r _ => r = true) (fun _ => True) t := by
      have hview : Wp (listRedis origin id) _ _ _ (t.view id) :=
        ReloadRun.wp_reconcileCommittedForward (R := R)
      refine (wp_of_view hview).mono ?_ fun _ _ => trivial
      intro r t' hr
      rcases hr with ⟨_, hnot, _⟩ | ⟨hr, _⟩
      · exact absurd h hnot
      · exact hr
    have hkeeps : Keeps (redis origin) (Names id none f) (w.reconcileCommittedForward id
        (ListSyncState.fromHashFields (t.state id)) md) :=
      names_follows w.reconcileCommittedForward_follows
    have hreload : Wp (redis origin) (w.applyFullReload id
        (ListSyncState.fromHashFields (t.state id)) md)
        (fun _ => Names id none f) (Names id none f) t := by
      refine Wp.seq ((hrun.and (hkeeps t hdb)).mono (fun _ _ h => h) fun _ h => h.2) ?_
      intro repaired t' ⟨hrepaired, hnames⟩
      subst hrepaired
      exact .pure hnames hnames
    exact Wp.seq hreload fun _ t' ht' => .pure ht' ht'

/-- What an execution that started in `db` may leave as the committed
file: the same, none, or the file of a full reload that is not a repair in
place. -/
def FileAfter (db : Db) (id : ListId) (db' : Db) : Prop :=
  (db'.state id).file = (db.state id).file ∨ (db'.state id).file.version = "" ∨
    ∃ md, w.resolve db id = .ok (some (.fullReload, md)) ∧ ¬ w.repairsInPlace db id md ∧
      (db'.state id).file = md.file

/-- Where the task may commit nothing, the file stays or is gone. -/
theorem fileAfter_of_names_none (h : Names id none (db.state id).file db') :
    w.FileAfter db id db' := by
  rcases h with h | h | ⟨_, hnone, _⟩
  · exact .inl h
  · exact .inr (.inl h)
  · simp at hnone

theorem fileAfter_runClaimed {o : Outcome WorkerError WorkerRunOutcome}
    (he : Exec (redis origin) (w.runClaimed id) db db' o) : w.FileAfter db id db' := by
  have hwp : Wp (redis origin) (w.runClaimed id) (fun _ => w.FileAfter db id)
      (w.FileAfter db id) db := by
    refine w.wp_runClaimed (.inl rfl) ?_ ?_
    · intro _ t ht
      have hstate : t.state id = db.state id := congrArg ListView.state (Persisted.view ht id)
      have hsame : w.FileAfter db id t := .inl (congrArg StateHash.file hstate)
      exact ⟨hsame, hsame⟩
    · intro action md hplan
      by_cases hrep : action = .fullReload ∧ w.repairsInPlace db id md
      · obtain ⟨rfl, hrep⟩ := hrep
        exact (w.names_repair hrep (.inl rfl)).mono (fun _ _ => w.fileAfter_of_names_none)
          fun _ => w.fileAfter_of_names_none
      · have hcases : ∀ t, Names id (action.commits md) (db.state id).file t →
            w.FileAfter db id t := by
          intro t ht
          cases action with
          | fullReload =>
            rcases ht with ht | ht | ⟨md', htarget, ht⟩
            · exact .inl ht
            · exact .inr (.inl ht)
            · obtain rfl := Option.some.inj htarget
              exact .inr (.inr ⟨md, hplan, fun h => hrep ⟨rfl, h⟩, ht⟩)
          | delta => exact w.fileAfter_of_names_none ht
          | remove => exact w.fileAfter_of_names_none ht
        exact (w.names_runPlanned db (.inl rfl)).mono (fun _ t ht => hcases t ht) hcases
  exact hwp.always (fun _ _ h => h) he

end IdListSyncWorker

/-! ## Whole runs -/

/-- The creation times a list has committed since it was last absent. -/
def recordCommit (id : ListId) (seen : Set Nat) (db : Db) : Set Nat :=
  if (db.state id).file.version = "" then ∅ else insert (db.state id).file.creationTime seen

/-- One step of a run, with the creation times the list `id` has committed
so far; `P` is what is asked of a full reload. -/
inductive CommitStep (P : IdListSyncWorker → Db → ListId → TaskMetadata → Prop) (id : ListId) :
    Db × Set Nat → Db × Set Nat → Prop
  /-- The metadata of a task is written, renewed or expires. -/
  | task (db : Db) (seen : Set Nat) (j : ListId) (h : TaskMetaHash) :
      CommitStep P id (db, seen) (db.setTaskMeta j h, seen)
  /-- A forward set is lost. -/
  | lost (db : Db) (seen : Set Nat) (j : ListId) (ver : String) :
      CommitStep P id (db, seen) (db.setFwd j ver {}, seen)
  /-- A worker executes a task, and may stop anywhere. -/
  | execution {db db' : Db} (seen : Set Nat) (w : IdListSyncWorker)
      (origin : String → List UInt8) (j : ListId)
      (o : Outcome WorkerError IdListSyncWorker.WorkerRunOutcome)
      (hP : ∀ md, w.resolve db j = .ok (some (.fullReload, md)) → P w db j md)
      (he : Exec (redis origin) (w.runClaimed j) db db' o) :
      CommitStep P id (db, seen) (db', recordCommit id seen db')

/-- The committed file is not loaded again with an older creation time. -/
def KeepsTime (w : IdListSyncWorker) (db : Db) (id : ListId) (md : TaskMetadata) : Prop :=
  md.fileId = (db.state id).file.fileId → ¬ w.repairsInPlace db id md →
    (db.state id).file.creationTime ≤ md.creationTime

/-- The stored creation time bounds all that were committed. -/
structure CommittedLe (id : ListId) (db : Db) (seen : Set Nat) : Prop where
  ok : db.Ok
  absent : (db.state id).file.version = "" → seen = ∅
  le : ∀ t ∈ seen, t ≤ (db.state id).file.creationTime

theorem committedLe_step {seen seen' : Set Nat} (h : CommittedLe id db seen)
    (hstep : CommitStep KeepsTime id (db, seen) (db', seen')) : CommittedLe id db' seen' := by
  cases hstep with
  | task j fields => exact ⟨h.ok.congr rfl rfl, h.absent, h.le⟩
  | lost j ver => exact ⟨h.ok.congr rfl rfl, h.absent, h.le⟩
  | execution _ w origin j o hP he =>
    have htidy := w.runClaimed_tidy h.ok he
    -- Only the creation time of a new file can be below one already seen.
    have hbound : (db'.state id).file.version ≠ "" →
        ∀ t ∈ seen, t ≤ (db'.state id).file.creationTime := by
      intro hver t ht
      have hle := h.le t ht
      by_cases hj : j = id
      · subst hj
        rcases w.fileAfter_runClaimed he with hfile | hfile | ⟨md, hplan, hrep, hfile⟩
        · rw [hfile]
          exact hle
        · exact absurd hfile hver
        · rw [hfile]
          have htime : (db.state j).file.creationTime ≤ md.creationTime := by
            cases w.resolve_fullReload hplan with
            | initial hempty =>
              rw [h.absent hempty] at ht
              exact ht.elim
            | rotation _ hnewer => exact Nat.le_of_lt hnewer
            | reindex hsame => exact hP md hplan hsame hrep
            | pending hsame => exact hP md hplan hsame hrep
            | lost hsame => exact hP md hplan hsame hrep
          exact Nat.le_trans hle htime
      · rw [htidy.2.state id (Ne.symm hj)]
        exact hle
    refine ⟨htidy.1, ?_, ?_⟩
    · intro hver
      exact if_pos hver
    · intro t ht
      unfold recordCommit at ht
      split at ht
      · exact ht.elim
      · rename_i hver
        rcases Set.mem_insert_iff.mp ht with rfl | ht
        · exact Nat.le_refl _
        · exact hbound hver t ht

theorem committed_le {s : Db × Set Nat}
    (h : Relation.ReflTransGen (CommitStep KeepsTime id) ({}, ∅) s) :
    CommittedLe id s.1 s.2 := by
  induction h with
  | refl => exact ⟨empty_ok, fun _ => rfl, by simp⟩
  | tail _ hstep ih => exact committedLe_step ih hstep

/-- **No rollback**: in a run in which no reload of the committed file
lowers its creation time, a full reload of a different file is newer than
every version the list has committed. -/
theorem no_rollback {seen : Set Nat}
    (hrun : Relation.ReflTransGen (CommitStep KeepsTime id) ({}, ∅) (db, seen))
    {w : IdListSyncWorker} {md : TaskMetadata}
    (hplan : w.resolve db id = .ok (some (.fullReload, md)))
    (hfile : md.fileId ≠ (db.state id).file.fileId) : ∀ t ∈ seen, t < md.creationTime := by
  intro t ht
  have hle := committed_le hrun
  cases w.resolve_fullReload hplan with
  | initial hempty =>
    have hnone : seen = ∅ := hle.absent hempty
    rw [hnone] at ht
    exact ht.elim
  | rotation _ hnewer => exact Nat.lt_of_le_of_lt (hle.le t ht) hnewer
  | reindex hsame => exact absurd hsame hfile
  | pending hsame => exact absurd hsame hfile
  | lost hsame => exact absurd hsame hfile

/-! A forward-only list at version 5 of the file F, whose forward set is
lost; an entry of F with creation time 3 recovers it, and the file G of
creation time 4 is taken for newer. -/

/-- The execution of a load of `md`, whose body adds `a`. -/
def loadOnce (db : Db) (md : IdListMetadata) : Db :=
  (scripted smallOrigin).after 100 ((smallWorker false).runClaimed smallList)
    (db.setTaskMeta smallList (loadMeta md)) [.body ⟨[[43, 97, 10]], none⟩]

def loadedAt5 : Db := loadOnce {} ⟨"F", 5, "u", 3⟩

def recoveredAt3 : Db := loadOnce (loadedAt5.setFwd smallList "F@5" {}) ⟨"F", 3, "u", 3⟩

def rolledBackTo4 : Db := loadOnce recoveredAt3 ⟨"G", 4, "g", 3⟩

theorem loadOnce_exec {db : Db} {md : IdListMetadata}
    (h : ((scripted smallOrigin).run 100 ((smallWorker false).runClaimed smallList)
      (db.setTaskMeta smallList (loadMeta md)) [.body ⟨[[43, 97, 10]], none⟩]).map Prod.snd =
        some (.ok (.completed .fullReload))) :
    Exec (redis smallOrigin) ((smallWorker false).runClaimed smallList)
      (db.setTaskMeta smallList (loadMeta md)) (loadOnce db md) (.ok (.completed .fullReload)) :=
  (scripted smallOrigin).after_sound h

theorem mem_recordCommit {seen : Set Nat} {t : Nat} (hver : (db.state id).file.version ≠ "")
    (h : t = (db.state id).file.creationTime ∨ t ∈ seen) : t ∈ recordCommit id seen db := by
  unfold recordCommit
  rw [if_neg hver]
  exact Set.mem_insert_iff.mpr h

theorem no_rollback_rotation :
    5 ∈ recordCommit smallList ∅ loadedAt5 ∧ ∀ t ∈ recordCommit smallList ∅ loadedAt5, t < 6 := by
  have hrun : Relation.ReflTransGen (CommitStep KeepsTime smallList) ({}, ∅)
      (loadedAt5.setTaskMeta smallList (loadMeta ⟨"G", 6, "g", 3⟩),
        recordCommit smallList ∅ loadedAt5) := by
    refine .tail (.tail (.single (.task _ _ _ _)) (.execution _ (smallWorker false) smallOrigin
      smallList _ ?_ (loadOnce_exec (by decide +kernel)))) (.task _ _ _ _)
    intro md _ _ _
    exact Nat.zero_le _
  have hplan : (smallWorker false).resolve
      (loadedAt5.setTaskMeta smallList (loadMeta ⟨"G", 6, "g", 3⟩)) smallList =
        .ok (some (.fullReload, ⟨.load, "G", 6, "g", 3⟩)) := by decide +kernel
  exact ⟨mem_recordCommit (by decide +kernel) (.inl (by decide +kernel)),
    no_rollback hrun hplan (by decide +kernel)⟩

/-- Without the condition an older file can follow a newer one. -/
theorem rollback_after_recovery : ¬ ∀ (id : ListId) (w : IdListSyncWorker)
    (origin : String → List UInt8) (md : TaskMetadata) (db db' : Db) (seen : Set Nat)
    (a : IdListSyncWorker.WorkerRunOutcome),
    Relation.ReflTransGen (CommitStep (fun _ _ _ _ => True) id) ({}, ∅) (db, seen) →
    w.resolve db id = .ok (some (.fullReload, md)) →
    md.fileId ≠ (db.state id).file.fileId →
    Exec (redis origin) (w.runClaimed id) db db' (.ok a) →
    (db'.state id).file = md.file → ∀ t ∈ seen, t < md.creationTime := by
  intro hclaim
  have hrun : Relation.ReflTransGen (CommitStep (fun _ _ _ _ => True) smallList) ({}, ∅)
      (recoveredAt3.setTaskMeta smallList (loadMeta ⟨"G", 4, "g", 3⟩),
        recordCommit smallList (recordCommit smallList ∅ loadedAt5) recoveredAt3) := by
    refine .tail (.tail (.tail (.tail (.tail (.single (.task _ _ _ _)) (.execution _
      (smallWorker false) smallOrigin smallList _ (fun _ _ => trivial)
      (loadOnce_exec (by decide +kernel)))) (.lost _ _ smallList "F@5")) (.task _ _ _ _))
      (.execution _ (smallWorker false) smallOrigin smallList _ (fun _ _ => trivial)
      (loadOnce_exec (by decide +kernel)))) (.task _ _ _ _)
  have hexec : Exec (redis smallOrigin) ((smallWorker false).runClaimed smallList)
      (recoveredAt3.setTaskMeta smallList (loadMeta ⟨"G", 4, "g", 3⟩)) rolledBackTo4
      (.ok (.completed .fullReload)) := loadOnce_exec (by decide +kernel)
  have hmem : 5 ∈ recordCommit smallList (recordCommit smallList ∅ loadedAt5) recoveredAt3 :=
    mem_recordCommit (by decide +kernel)
      (.inr (mem_recordCommit (by decide +kernel) (.inl (by decide +kernel))))
  have hlt := hclaim smallList (smallWorker false) smallOrigin ⟨.load, "G", 4, "g", 3⟩ _ _ _ _ hrun
    (by decide +kernel) (by decide +kernel) hexec (by decide +kernel) 5 hmem
  exact absurd hlt (by decide)

end ForwardProxy.IdList
