/-
ForwardProxy.IdList.IndexModeTheorems — switching the reverse index off
and on.

`ModeStep` is one step of a deployment whose workers may run in either
mode: the metadata of a task changes, or a worker executes a task. A full
reload may stop anywhere, and so may a delta in forward-only mode; the
other executions complete.

The cursor of a diff counts partitions, whose number a worker takes from
its own configuration. So a diff has to be taken up with the partitions it
was begun with (`TakesUpAlike`). A worker in forward-only mode runs no
diffs, and may have any. Along a run with this condition every list keeps
the index invariant (`reach_good`), and where the planner sees no work for
the committed file, the invariant leaves only one possibility.
-/
import Mathlib.Logic.Relation
import ForwardProxy.IdList.PartitionCursorTheorems

namespace ForwardProxy.IdList

open Effect

/-! ## The partitions of a worker -/

/-- The workers cut the sets of the load into the same partitions. -/
def SamePartitions (w w' : IdListSyncWorker) (v : ListView) (n : String) : Prop :=
  w'.digest = w.digest ∧ w'.partitionCount v.committed.card (v.fwd n).card =
    w.partitionCount v.committed.card (v.fwd n).card

/-- A diff that is under way goes on with the partitions it was begun with. -/
def TakesUpAlike (w w' : IdListSyncWorker) (v : ListView) : Prop :=
  ¬ v.Flagged → ∀ n j, v.state.loadingVersion = some n → n ≠ v.version →
    v.state.diffPartition = some j → SamePartitions w w' v n

theorem Good.takenUp {w w' : IdListSyncWorker} {v : ListView} (h : Good w v)
    (hw : TakesUpAlike w w' v) : Good w' v := by
  refine ⟨h.idle, h.tagged, h.recovers, ?_⟩
  by_cases hflag : v.Flagged
  · exact .inl hflag
  · have hexact := h.index.resolve_left hflag
    refine .inr ⟨hexact.idle, hexact.pending, ?_, hexact.reloaded⟩
    intro n j hn hne hj
    obtain ⟨hdigest, hcount⟩ := hw hflag n j hn hne hj
    have hpart : w'.partOf = w.partOf := by
      funext partitions m
      unfold IdListSyncWorker.partOf
      rw [hdigest]
    rw [hpart, hcount]
    exact hexact.diffing n j hn hne hj

theorem Good.congr {w : IdListSyncWorker} {v v' : ListView} (h : Good w v)
    (hstate : v'.state = v.state) (hfwd : v'.fwd = v.fwd) (htag : v'.tag = v.tag) : Good w v' := by
  obtain ⟨state, fwd, tok, tag⟩ := v
  obtain ⟨state', fwd', tok', tag'⟩ := v'
  simp only at hstate hfwd htag
  subst hstate hfwd htag
  exact ⟨h.idle, h.tagged, h.recovers, h.index.imp_right fun hexact =>
    ⟨hexact.idle, hexact.pending, hexact.diffing, hexact.reloaded⟩⟩

namespace IdListSyncWorker

/-- The worker, with the partitions of another one. -/
def withPartitions (w w₀ : IdListSyncWorker) : IdListSyncWorker where
  config :=
    { w.config with
      diffPartitionMaxMembers := w₀.config.diffPartitionMaxMembers
      diffPartitionMaxMembers_pos := w₀.config.diffPartitionMaxMembers_pos }
  digest := w₀.digest
  fwdKey := w.fwdKey

variable {w w₀ : IdListSyncWorker}

theorem reindexReload_forwardOnly (hrev : w.config.enableReverseIndex = false) (id : ListId)
    (oldVer : Option String) (newVer : String) (reconcile : Bool)
    (token diffPartition oldCard newCard : Nat) :
    w.reindexReload id oldVer newVer reconcile token diffPartition oldCard newCard = .pure () := by
  simp [reindexReload, hrev, Prog.when]

theorem commitReload_withPartitions : (w.withPartitions w₀).commitReload = w.commitReload := rfl

theorem publishReload_withPartitions (hrev : w.config.enableReverseIndex = false) :
    (w.withPartitions w₀).publishReload = w.publishReload := by
  have hrev₀ : (w.withPartitions w₀).config.enableReverseIndex = false := hrev
  funext id state md newVer reconcile token loadingSize diffPartition
  simp only [publishReload, reindexReload_forwardOnly hrev, reindexReload_forwardOnly hrev₀,
    commitReload_withPartitions]

theorem runAction_withPartitions (hrev : w.config.enableReverseIndex = false) :
    (w.withPartitions w₀).runAction = w.runAction := by
  funext id state md action
  cases action with
  | delta => rfl
  | fullReload =>
    simp only [runAction, applyFullReload, publishReload_withPartitions hrev]
    rfl
  | remove => rfl

/-- A worker in forward-only mode runs no diffs. -/
theorem runClaimed_withPartitions (hrev : w.config.enableReverseIndex = false) (id : ListId) :
    (w.withPartitions w₀).runClaimed id = w.runClaimed id := by
  simp only [runClaimed, runPlanned, runAction_withPartitions hrev]
  rfl

end IdListSyncWorker

/-! ## One execution -/

/-- The executions that may stop after any command. -/
def MayStop (w : IdListSyncWorker) : IdListSyncWorker.WorkerAction → Prop
  | .fullReload => True
  | .delta => w.config.enableReverseIndex = false
  | .remove => False

/-- The contents, and for each list the reverse-mode worker that last
executed a task of it. -/
structure ModeWorld where
  db : Db
  last : ListId → IdListSyncWorker

/-- One step; `P` is what is asked of a worker in reverse mode, beside the
one before it and what it finds. -/
inductive ModeStep (P : IdListSyncWorker → IdListSyncWorker → ListView → Prop) :
    ModeWorld → ModeWorld → Prop
  /-- The metadata of a task is written, renewed or expires. -/
  | task (world : ModeWorld) (id : ListId) (h : TaskMetaHash) :
      ModeStep P world { world with db := world.db.setTaskMeta id h }
  | forwardOnly {world : ModeWorld} {db' : Db} (w : IdListSyncWorker)
      (origin : String → List UInt8) (id : ListId)
      (o : Outcome WorkerError IdListSyncWorker.WorkerRunOutcome)
      (hrev : w.config.enableReverseIndex = false)
      (hstop : (∃ a, o = .ok a) ∨ ∀ action md, w.resolve world.db id = .ok (some (action, md)) →
        MayStop w action)
      (he : Exec (redis origin) (w.runClaimed id) world.db db' o) :
      ModeStep P world { world with db := db' }
  | reverse {world : ModeWorld} {db' : Db} (w : IdListSyncWorker)
      (origin : String → List UInt8) (id : ListId)
      (o : Outcome WorkerError IdListSyncWorker.WorkerRunOutcome)
      (hrev : w.config.enableReverseIndex = true)
      (hstop : (∃ a, o = .ok a) ∨ ∀ action md, w.resolve world.db id = .ok (some (action, md)) →
        MayStop w action)
      (hP : P (world.last id) w (world.db.view id))
      (he : Exec (redis origin) (w.runClaimed id) world.db db' o) :
      ModeStep P world ⟨db', Function.update world.last id w⟩

variable {w : IdListSyncWorker} {origin : String → List UInt8} {id : ListId} {db db' : Db}

/-- The execution of a task keeps the invariant of its own list. -/
theorem good_runClaimed (hok : db.Ok) (hgood : Good w (db.view id))
    {o : Outcome WorkerError IdListSyncWorker.WorkerRunOutcome}
    (hstop : (∃ a, o = .ok a) ∨ ∀ action md, w.resolve db id = .ok (some (action, md)) →
      MayStop w action)
    (he : Exec (redis origin) (w.runClaimed id) db db' o) : Good w (db'.view id) := by
  have hwp : Wp (redis origin) (w.runClaimed id) (fun _ t => Good w (t.view id))
      (fun t => (∀ action md, w.resolve db id = .ok (some (action, md)) → MayStop w action) →
        Good w (t.view id)) db := by
    refine w.wp_runClaimed (fun _ => hgood) (fun _ t ht => ?_) fun action md hplan => ?_
    · have hview : Good w (t.view id) := by
        rw [IdListSyncWorker.Persisted.view ht]
        exact hgood
      exact ⟨fun _ => hview, hview⟩
    · cases action with
      | fullReload =>
        refine (wp_of_view (w.wp_runReload_good hplan hgood)).mono ?_ ?_
        · exact fun _ t ht => ht.1
        · exact fun t ht _ => ht
      | delta =>
        by_cases hrev : w.config.enableReverseIndex = true
        · have hsettled := w.settled_of_resolve_delta hrev hplan hgood
          have hver : (db.view id).version ≠ "" := (w.resolve_delta hplan).version
          have htag : (db.view id).tag = (db.view id).fwd (db.version id) := by
            have hindex := hsettled.index
            unfold ListView.committed at hindex
            rw [if_neg hver] at hindex
            exact hindex
          refine (wp_of_view (w.wp_runDelta hrev htag)).mono ?_ ?_
          · rintro _ t ⟨_, _, ht⟩
            rw [ht]
            exact (IdListSyncWorker.settled_deltaAt hsettled hver _ _ _).good w
              (IdListSyncWorker.tagged_deltaAt hgood.tagged _ _ _ _)
          · intro t _ hmay
            have := hmay _ _ hplan
            simp [MayStop, hrev] at this
        · have hrev : w.config.enableReverseIndex = false := by simpa using hrev
          exact (wp_of_view (w.wp_runDelta_forwardOnly hrev hgood)).mono (fun _ _ h => h)
            fun _ h _ => h
      | remove =>
        intro t o' he'
        refine ⟨fun a ha => ?_, fun _ hmay => (hmay _ _ hplan).elim⟩
        subst ha
        obtain ⟨hsettled, hstate⟩ := w.settled_runRemove hok he'
        refine hsettled.good w fun hver => absurd ?_ hver
        show (t.state id).version.getD "" = ""
        rw [hstate]
        rfl
  rcases hstop with ⟨a, rfl⟩ | hmay
  · exact hwp.ok he
  · exact hwp.always (fun _ _ h _ => h) he hmay

/-! ## Whole runs -/

/-- The invariant of a run: every list is good for the worker that ran last,
and the dictionaries are consistent. -/
def AllGood (world : ModeWorld) : Prop :=
  world.db.Ok ∧ ∀ id, Good (world.last id) (world.db.view id)

variable {world world' : ModeWorld}

/-- The execution of a task leaves the other lists alone. -/
theorem AllGood.execution (h : AllGood world) {last : ListId → IdListSyncWorker}
    {o : Outcome WorkerError IdListSyncWorker.WorkerRunOutcome}
    (he : Exec (redis origin) (w.runClaimed id) world.db db' o)
    (hlast : ∀ j, j ≠ id → last j = world.last j) (hown : Good (last id) (db'.view id)) :
    AllGood ⟨db', last⟩ := by
  have htidy := w.runClaimed_tidy h.1 he
  refine ⟨htidy.1, fun j => ?_⟩
  by_cases hj : j = id
  · subst hj
    exact hown
  · obtain ⟨hstate, hfwd, htag⟩ := htidy.other h.1 hj
    show Good (last j) (db'.view j)
    rw [hlast j hj]
    exact (h.2 j).congr hstate hfwd htag

/-- A worker in forward-only mode has whatever partitions are asked for. -/
theorem good_forwardOnly {w₀ : IdListSyncWorker} (hok : db.Ok) (hgood : Good w₀ (db.view id))
    (hrev : w.config.enableReverseIndex = false)
    {o : Outcome WorkerError IdListSyncWorker.WorkerRunOutcome}
    (hstop : (∃ a, o = .ok a) ∨ ∀ action md, w.resolve db id = .ok (some (action, md)) →
      MayStop w action)
    (he : Exec (redis origin) (w.runClaimed id) db db' o) : Good w₀ (db'.view id) := by
  have hsame : ∀ v, TakesUpAlike w₀ (w.withPartitions w₀) v ∧
      TakesUpAlike (w.withPartitions w₀) w₀ v :=
    fun v => ⟨fun _ _ _ _ _ _ => ⟨rfl, rfl⟩, fun _ _ _ _ _ _ => ⟨rfl, rfl⟩⟩
  have he₀ : Exec (redis origin) ((w.withPartitions w₀).runClaimed id) db db' o := by
    rw [IdListSyncWorker.runClaimed_withPartitions hrev]
    exact he
  exact (good_runClaimed hok (hgood.takenUp (hsame _).1) hstop he₀).takenUp (hsame _).2

theorem allGood_step (h : AllGood world) (hstep : ModeStep TakesUpAlike world world') :
    AllGood world' := by
  cases hstep with
  | task id fields => exact ⟨h.1.congr rfl rfl, h.2⟩
  | forwardOnly w origin id o hrev hstop he =>
    exact h.execution he (fun _ _ => rfl) (good_forwardOnly h.1 (h.2 id) hrev hstop he)
  | reverse w origin id o hrev hstop halike he =>
    refine h.execution he (fun j hj => Function.update_of_ne hj _ _) ?_
    rw [Function.update_self]
    exact good_runClaimed h.1 ((h.2 id).takenUp halike) hstop he

theorem reach_good {last : ListId → IdListSyncWorker}
    (h : Relation.ReflTransGen (ModeStep TakesUpAlike) ⟨{}, last⟩ world) : AllGood world := by
  induction h with
  | refl =>
    exact ⟨empty_ok, fun id => (IdListSyncWorker.settled_of_erased empty_ok rfl rfl).good _
      fun hver => absurd rfl hver⟩
  | tail _ hstep ih => exact allGood_step ih hstep

/-- **Switching the reverse index off and on is safe**, where diffs are
taken up with the partitions they were begun with: if the planner of a
reverse-mode worker has no work for an entry of the committed file, the
reverse index of the list is its committed forward set. -/
theorem tag_of_plan_none {last : ListId → IdListSyncWorker}
    (hrun : Relation.ReflTransGen (ModeStep TakesUpAlike) ⟨{}, last⟩ world)
    (md : IdListMetadata)
    (hfile : md.fileId = (ListSyncState.fromHashFields (world.db.state id)).fileId)
    (hplan : planSyncWithReverseIndex (IdListSyncProducer.parseState (world.db.state id)) md
      (world.db.forwardExists id) true = none) :
    world.db.tag id = world.db.committed id := by
  obtain ⟨hok, hgood⟩ := reach_good hrun
  obtain ⟨_, hdis, hload, hlost⟩ := quiet_of_plan_none hfile hplan
  have hsettled := (hgood id).settled hload (hdis rfl) hlost
  rw [← view_tag hok id]
  exact hsettled.index

/-! The list is loaded in reverse mode, and its file grows. A worker in
forward-only mode is cut off in the delta, and does it again; one in reverse
mode is cut off while it repairs the index, and does that again. -/

def switchOrigin : String → List UInt8 := fun _ => [43, 97, 10, 43, 98, 10]

def modeStart : { db : Db // db.MembersIn ["a", "b"] } :=
  ⟨smallStart, (membersIn_empty _).congr (by simp [smallStart])⟩

def modeLoaded : { db : Db // db.MembersIn ["a", "b"] } :=
  scannedAfter smallOrigin 100 ((smallWorker true).runClaimed smallList) modeStart
    [.body ⟨[[43, 97, 10]], none⟩, .pages [["a"]]]

def modeGrown : { db : Db // db.MembersIn ["a", "b"] } :=
  ⟨modeLoaded.1.setTaskMeta smallList (loadMeta ⟨"F", 1, "u", 6⟩), modeLoaded.2.congr (by simp)⟩

def modeSkipped : { db : Db // db.MembersIn ["a", "b"] } :=
  scannedAfter switchOrigin 10 ((smallWorker false).runClaimed smallList) modeGrown
    [.body ⟨[[43, 98, 10]], none⟩]

def modeForwarded : { db : Db // db.MembersIn ["a", "b"] } :=
  scannedAfter switchOrigin 100 ((smallWorker false).runClaimed smallList) modeSkipped
    [.body ⟨[[43, 98, 10]], none⟩]

def modeRepairing : { db : Db // db.MembersIn ["a", "b"] } :=
  scannedAfter switchOrigin 17 ((smallWorker true).runClaimed smallList) modeForwarded
    [.pages [["a", "b"]], .pages [["a", "b"]]]

def modeRepaired : { db : Db // db.MembersIn ["a", "b"] } :=
  scannedAfter switchOrigin 100 ((smallWorker true).runClaimed smallList) modeRepairing
    [.pages [["a", "b"]], .pages [["a", "b"]]]

theorem mode_runs :
    Exec (redis smallOrigin) ((smallWorker true).runClaimed smallList) modeStart.1 modeLoaded.1
      (.ok (.completed .fullReload)) ∧
    Exec (redis switchOrigin) ((smallWorker false).runClaimed smallList) modeGrown.1 modeSkipped.1
      .stopped ∧
    Exec (redis switchOrigin) ((smallWorker false).runClaimed smallList) modeSkipped.1
      modeForwarded.1 (.ok (.completed .delta)) ∧
    Exec (redis switchOrigin) ((smallWorker true).runClaimed smallList) modeForwarded.1
      modeRepairing.1 .stopped ∧
    Exec (redis switchOrigin) ((smallWorker true).runClaimed smallList) modeRepairing.1
      modeRepaired.1 (.ok (.completed .fullReload)) :=
  ⟨scannedAfter_exec (by decide +kernel), scannedAfter_exec (by decide +kernel),
    scannedAfter_exec (by decide +kernel), scannedAfter_exec (by decide +kernel),
    scannedAfter_exec (by decide +kernel)⟩

-- Evaluated by the kernel only.
attribute [irreducible] modeLoaded modeSkipped modeForwarded modeRepairing modeRepaired

theorem mayStop_of_plan {action : IdListSyncWorker.WorkerAction} {md : TaskMetadata}
    (hplan : w.resolve db id = .ok (some (action, md))) (h : MayStop w action) :
    ∀ action' md', w.resolve db id = .ok (some (action', md')) → MayStop w action' := by
  intro action' md' hplan'
  rw [hplan] at hplan'
  cases hplan'
  exact h

theorem TakesUpAlike.refl (w : IdListSyncWorker) (v : ListView) : TakesUpAlike w w v :=
  fun _ _ _ _ _ _ => ⟨rfl, rfl⟩

theorem takesUpAlike_update (last : ListId → IdListSyncWorker) (id : ListId) (w : IdListSyncWorker)
    (v : ListView) : TakesUpAlike (Function.update last id w id) w v := by
  rw [Function.update_self]
  exact .refl w v

theorem tag_of_plan_none_load : modeRepaired.1.tag smallList = modeRepaired.1.committed smallList := by
  obtain ⟨hloaded, hskipped, hforwarded, hrepairing, hrepaired⟩ := mode_runs
  have hdelta : (smallWorker false).resolve modeGrown.1 smallList =
      .ok (some (.delta, ⟨.load, "F", 1, "u", 6⟩)) := by decide +kernel
  have hreload : (smallWorker true).resolve modeForwarded.1 smallList =
      .ok (some (.fullReload, ⟨.load, "F", 1, "u", 6⟩)) := by decide +kernel
  have hload : Relation.ReflTransGen (ModeStep TakesUpAlike) ⟨{}, fun _ => smallWorker true⟩ _ :=
    (Relation.ReflTransGen.single (.task _ smallList (loadMeta ⟨"F", 1, "u", 3⟩))).tail
      (.reverse _ _ _ _ rfl (.inl ⟨_, rfl⟩) (.refl _ _) hloaded)
  have hforward := ((hload.tail (.task _ smallList (loadMeta ⟨"F", 1, "u", 6⟩))).tail
    (.forwardOnly _ _ _ _ rfl (.inr (mayStop_of_plan hdelta rfl)) hskipped)).tail
      (.forwardOnly _ _ _ _ rfl (.inl ⟨_, rfl⟩) hforwarded)
  have hrun := (hforward.tail
    (.reverse _ _ _ _ rfl (.inr (mayStop_of_plan hreload trivial)) (takesUpAlike_update _ _ _ _)
      hrepairing)).tail
      (.reverse _ _ _ _ rfl (.inl ⟨_, rfl⟩) (takesUpAlike_update _ _ _ _) hrepaired)
  exact tag_of_plan_none hrun ⟨"F", 1, "u", 6⟩ (by decide +kernel) (by decide +kernel)

/-- With other partitions a diff can be left undone, and the planner does not
see it. -/
theorem tag_of_plan_none_other_partitions : ¬ ∀ (last : ListId → IdListSyncWorker)
    (world : ModeWorld) (id : ListId) (md : IdListMetadata),
    Relation.ReflTransGen (ModeStep fun _ _ _ => True) ⟨{}, last⟩ world →
    md.fileId = (ListSyncState.fromHashFields (world.db.state id)).fileId →
    planSyncWithReverseIndex (IdListSyncProducer.parseState (world.db.state id)) md
      (world.db.forwardExists id) true = none →
    world.db.tag id = world.db.committed id := by
  intro hclaim
  have hplan : (cursorWorker 1 Nat.one_pos).resolve cursorRotated smallList =
      .ok (some (.fullReload, cursorTask)) := by decide +kernel
  have hload : Relation.ReflTransGen (ModeStep fun _ _ _ => True)
      ⟨{}, fun _ => cursorWorker 1 Nat.one_pos⟩ _ :=
    (Relation.ReflTransGen.single (.task _ smallList (loadMeta ⟨"F", 1, "u", 6⟩))).tail
      (.reverse _ _ _ _ rfl (.inl ⟨_, rfl⟩) trivial cursor_runs.1)
  have hrun := ((hload.tail (.task _ smallList (loadMeta cursorTask.asIdListMetadata))).tail
    (.reverse _ _ _ _ rfl (.inr (mayStop_of_plan hplan trivial)) trivial cursor_runs.2.1)).tail
      (.reverse _ _ _ _ rfl (.inl ⟨_, rfl⟩) trivial cursor_runs.2.2)
  have hindex : cursorResumed.tag smallList = cursorResumed.committed smallList :=
    hclaim _ _ smallList cursorTask.asIdListMetadata hrun (by decide +kernel) (by decide +kernel)
  have hkept : "b" ∈ cursorResumed.tag smallList := ⟨1, by decide +kernel, by decide +kernel⟩
  have hgone : "b" ∉ cursorResumed.committed smallList := by decide +kernel
  rw [hindex] at hkept
  exact hgone hkept

end ForwardProxy.IdList
