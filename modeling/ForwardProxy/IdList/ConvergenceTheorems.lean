/-
ForwardProxy.IdList.ConvergenceTheorems — the planner and the worker, run
one after the other until there is nothing left to plan.

A round is a plan of the producer and an execution of it by the worker,
which plans once more from the metadata it finds. Both plans agree
(`plan_target`), so a round runs the action that was planned.

A completed reload leaves a list with nothing pending, skipped or lost
(`Checked`), whatever it found. What it may leave is a size below the
manifest's, when it took up a load whose diff had begun: then the next
plan is a delta, and a completed delta leaves no plan. The reverse index
plays no part in this, so nothing is asked of it.
-/
import ForwardProxy.IdList.ProducerTheorems
import ForwardProxy.IdList.TornTaskTheorems

namespace ForwardProxy.IdList

open Effect

/-! ## Planning again -/

section Plan

variable {state : Option ListSyncState} {md target : IdListMetadata} {action : SyncAction}
  {fwdExists enabled : Bool}

/-- The target of a plan is its own target. -/
theorem planTarget_planTarget :
    planTarget state (planTarget state md enabled) enabled = planTarget state md enabled := by
  cases state with
  | none => rfl
  | some s =>
    by_cases hstale : (enabled && s.reverseIndexDisabled && s.version ≠ "" &&
        md.fileId ≠ s.fileId && md.creationTime ≤ s.creationTime) = true
    · have htarget : planTarget (some s) md enabled = s.committedMeta := if_pos hstale
      rw [htarget]
      refine if_neg fun hcond => ?_
      simp [ListSyncState.committedMeta] at hcond
    · have htarget : planTarget (some s) md enabled = md := if_neg hstale
      rw [htarget, htarget]

/-- **Planning the target again gives the same plan.** -/
theorem plan_target
    (h : planSyncWithReverseIndex state md fwdExists enabled = some (action, target)) :
    planSyncWithReverseIndex state target fwdExists enabled = some (action, target) := by
  have htarget : planTarget state md enabled = target := by
    unfold planSyncWithReverseIndex at h
    simp only [Option.map_eq_some_iff, Prod.mk.injEq] at h
    obtain ⟨_, _, _, rfl⟩ := h
    rfl
  rw [← h]
  unfold planSyncWithReverseIndex
  rw [← htarget, planTarget_planTarget]

/-- No plan of a list in the manifest is a removal. -/
theorem plan_ne_remove
    (h : planSyncWithReverseIndex state md fwdExists enabled = some (action, target)) :
    action ≠ .remove := by
  rintro rfl
  unfold planSyncWithReverseIndex at h
  simp only [Option.map_eq_some_iff, Prod.mk.injEq] at h
  obtain ⟨_, hwork, rfl, _⟩ := h
  unfold needsWorkWithReverseIndex at hwork
  split at hwork
  · simp at hwork
  · repeat' split at hwork
    all_goals simp at hwork

/-- A first load is for the manifest's entry. -/
theorem plan_target_none
    (h : planSyncWithReverseIndex none md fwdExists enabled = some (action, target)) :
    target = md := by
  unfold planSyncWithReverseIndex at h
  simp only [Option.map_eq_some_iff, Prod.mk.injEq] at h
  obtain ⟨_, _, _, rfl⟩ := h
  rfl

/-- The target is the manifest's entry, or the committed file under an
older entry. -/
theorem plan_target_cases {s : ListSyncState}
    (h : planSyncWithReverseIndex (some s) md fwdExists enabled = some (action, target)) :
    target = md ∨ (target = s.committedMeta ∧ md.fileId ≠ s.fileId ∧
      md.creationTime ≤ s.creationTime) := by
  unfold planSyncWithReverseIndex planTarget at h
  simp only [Option.map_eq_some_iff, Prod.mk.injEq] at h
  obtain ⟨_, _, _, rfl⟩ := h
  split
  · rename_i hstale
    simp only [Bool.and_eq_true, decide_eq_true_iff] at hstale
    exact .inr ⟨rfl, hstale.1.2, hstale.2⟩
  · exact .inl rfl

end Plan

/-! ## Lists with nothing pending, skipped or lost -/

/-- What a completed execution leaves. -/
structure Checked (enabled : Bool) (v : ListView) : Prop where
  version : v.version ≠ ""
  loadingVersion : v.state.loadingVersion = none
  indexed : enabled = true → v.state.reverseIndexDisabled = false
  counted : v.state.cardinality = some (v.fwd v.version).card

/-- The parsed state of a view. -/
def ListView.sync (v : ListView) : ListSyncState := ListSyncState.fromHashFields v.state

namespace IdListSyncWorker

variable (w : IdListSyncWorker) {origin : String → List UInt8} {db db' : Db} {id : ListId}
  {md target : IdListMetadata} {action : SyncAction}

/-- The plan for a list in the contents `db`. -/
def planned (db : Db) (id : ListId) (md : IdListMetadata) : Option (SyncAction × IdListMetadata) :=
  planSyncWithReverseIndex (IdListSyncProducer.parseState (db.state id)) md (db.forwardExists id)
    w.config.enableReverseIndex

/-- The producer of the same mode plans it. -/
theorem plans_eq_planned {p : IdListSyncProducer}
    (hmode : p.enableReverseIndex = w.config.enableReverseIndex) :
    p.plans db id md = w.planned db id md := by
  unfold IdListSyncProducer.plans planned
  rw [hmode]

theorem parseState_of_version (hver : db.version id ≠ "") :
    (db.state id).isEmpty = false ∧ IdListSyncProducer.parseState (db.state id) =
      some (db.view id).sync := by
  have hne : (db.state id).isEmpty = false := by
    by_contra he
    exact hver (isEmpty_version (by simpa using he))
  refine ⟨hne, ?_⟩
  unfold IdListSyncProducer.parseState
  rw [hne]
  rfl

/-- Only a newer file or the growth of the file is planned. -/
theorem planned_of_checked (h : Checked w.config.enableReverseIndex (db.view id)) :
    w.planned db id md =
      if md.fileId ≠ (db.view id).sync.fileId then
        if (db.view id).sync.creationTime < md.creationTime then some (.fullLoad, md) else none
      else if (db.view id).sync.size < md.size then
        some (.delta (md.size - (db.view id).sync.size), md)
      else none := by
  have hver : (db.view id).sync.version ≠ "" := h.version
  have hloading : (db.view id).sync.loadingVersion = none := h.loadingVersion
  have hindexed : (w.config.enableReverseIndex && (db.view id).sync.reverseIndexDisabled) = false := by
    cases hrev : w.config.enableReverseIndex with
    | false => rfl
    | true => exact h.indexed hrev
  have htarget : planTarget (some (db.view id).sync) md w.config.enableReverseIndex = md := by
    refine if_neg fun hstale => ?_
    rw [hindexed] at hstale
    simp at hstale
  have hlost : ¬ (0 < (db.view id).sync.cardinality.getD (db.view id).sync.size ∧
      db.forwardExists id = false) := by
    intro ⟨hpos, hmissing⟩
    have hempty := (lost_of_forwardExists h.version hpos hmissing).2.2
    have hcounted : (db.view id).sync.cardinality = some 0 := by
      rw [← Finset.card_empty, ← hempty]
      exact h.counted
    rw [hcounted] at hpos
    exact absurd hpos (Nat.lt_irrefl 0)
  unfold planned planSyncWithReverseIndex
  rw [(parseState_of_version h.version).2, htarget]
  unfold needsWorkWithReverseIndex
  simp only [hver, hloading, hindexed, hlost, if_false, Bool.false_eq_true, Option.isSome_none]
  split
  · split <;> rfl
  · split <;> rfl

/-! ## One execution -/

variable {v : ListView} {task : TaskMetadata}

/-- What a commit leaves, whatever came before it. -/
structure CommittedFrom (enabled : Bool) (task : TaskMetadata) (v v' : ListView) : Prop where
  checked : Checked enabled v'
  fileId : v'.sync.fileId = task.fileId
  creationTime : v'.sync.creationTime = task.creationTime
  fwd : v'.fwd = v.fwd
  tag : v'.tag = v.tag

/-- The commit is the last thing a reload does. -/
theorem wp_commitReload_checked {oldVer : Option String} {checkpoint : Nat} :
    Wp (listRedis origin id)
      (w.commitReload id task.versionTag oldVer { task with size := checkpoint })
      (fun _ => CommittedFrom w.config.enableReverseIndex task v) (fun _ => True) v := by
  refine wp_scard (wp_write rfl trivial (wp_write rfl trivial (wp_write rfl trivial ?_)))
  rw [ListView.after_hsetState, ListView.after_hdelState, ListView.after_saddAll]
  refine Wp.seq (P := fun _ => CommittedFrom w.config.enableReverseIndex task v) ?_ ?_
  · have hver : task.versionTag ≠ "" := versionTag_ne_empty _
    refine Wp.when (fun _ => wp_write_end rfl trivial trivial ?_) (fun _ => trivial) fun hrev => ?_
    · rw [ListView.after_hdelState]
      exact ⟨⟨hver, rfl, fun _ => rfl, rfl⟩, rfl, rfl, rfl, rfl⟩
    · refine ⟨⟨hver, rfl, fun h => ?_, rfl⟩, rfl, rfl, rfl, rfl⟩
      rw [hrev] at h
      simp at h
  · intro _ u hu
    refine wp_write rfl trivial ?_
    rw [ListView.after_persistFwd]
    cases oldVer with
    | none => exact .pure trivial hu
    | some old =>
      exact Wp.when (fun _ => wp_write_end rfl trivial trivial hu) (fun _ => trivial) fun _ => hu

theorem wp_publishReload_checked {state : ListSyncState} {reconcile : Bool}
    {token checkpoint cursor : Nat} :
    Wp (listRedis origin id)
      (w.publishReload id state task task.versionTag reconcile token checkpoint cursor)
      (fun _ v' => Checked w.config.enableReverseIndex v' ∧ v'.sync.fileId = task.fileId ∧
        v'.sync.creationTime = task.creationTime) (fun _ => True) v := by
  unfold publishReload
  refine Wp.seq .top fun oldCard _ _ => Wp.seq .top fun newCard _ _ => Wp.seq .top fun h _ _ => ?_
  refine Wp.ite (fun _ => .throw trivial) fun _ => ?_
  refine Wp.seq .top fun _ _ _ => Wp.seq .top fun _ _ _ => Wp.seq .top fun _ _ _ => ?_
  exact w.wp_commitReload_checked.mono (fun _ _ h => ⟨h.checked, h.fileId, h.creationTime⟩)
    fun _ h => h

/-- **A completed reload leaves nothing pending**, whatever it found. -/
theorem wp_runReload_checked :
    Wp (listRedis origin id) (w.runPlanned id v.sync .fullReload task)
      (fun _ v' => Checked w.config.enableReverseIndex v' ∧ v'.sync.fileId = task.fileId ∧
        (v'.sync.creationTime = task.creationTime ∨ v'.sync.creationTime = v.sync.creationTime))
      (fun _ => True) v := by
  refine w.wp_markForwardOnly trivial (Wp.seq (P := fun _ v' =>
    Checked w.config.enableReverseIndex v' ∧ v'.sync.fileId = task.fileId ∧
      (v'.sync.creationTime = task.creationTime ∨ v'.sync.creationTime = v.sync.creationTime))
    ?_ fun _ v' hv' => .pure trivial hv')
  have hrepair : Wp (listRedis origin id) _ _ _ _ :=
    ReloadRun.wp_reconcileCommittedForward (R := w.reloadRun v task (origin task.url))
  rw [reloadRun_state] at hrepair
  refine Wp.seq (hrepair.mono (fun _ _ h => h) fun _ _ => trivial) ?_
  intro repaired v' hv'
  rcases hv' with ⟨rfl, _, _⟩ | ⟨rfl, hrepairs, hdone⟩
  · refine Wp.seq .top fun started _ _ => Wp.seq .top fun token _ _ => ?_
    have hpublished : ∀ {u : ListView} {reconcile : Bool} {checkpoint cursor : Nat},
        Wp (listRedis origin id)
          (w.publishReload id v.sync task task.versionTag reconcile token checkpoint cursor)
          (fun _ v' => Checked w.config.enableReverseIndex v' ∧ v'.sync.fileId = task.fileId ∧
            (v'.sync.creationTime = task.creationTime ∨
              v'.sync.creationTime = v.sync.creationTime)) (fun _ => True) u :=
      w.wp_publishReload_checked.mono (fun _ _ h => ⟨h.1, h.2.1, .inl h.2.2⟩) fun _ h => h
    split
    · exact hpublished
    · exact Wp.seq .top fun _ _ _ => hpublished
  · -- The repair keeps the committed file.
    refine .pure trivial ?_
    obtain ⟨hrev, _, hver, hfile, _, hloading, hcard⟩ := hrepairs
    have hview : (w.reloadRun v task (origin task.url)).v = v := if_pos hrev
    rw [reloadRun_state] at hver hfile hloading hcard
    rw [hview] at hcard
    rw [hdone, hview]
    exact ⟨⟨hver, hloading, fun _ => rfl, hcard⟩, hfile, .inr rfl⟩

/-- **A completed delta leaves nothing to do** for its entry. -/
theorem wp_runDelta_checked (hver : v.version ≠ "") (hloading : v.state.loadingVersion = none)
    (hindexed : w.config.enableReverseIndex = true → v.state.reverseIndexDisabled = false)
    (hsize : v.sync.size < task.size) :
    Wp (listRedis origin id) (w.runPlanned id v.sync .delta task)
      (fun _ v' => Checked w.config.enableReverseIndex v' ∧ v'.sync.fileId = v.sync.fileId ∧
        task.size ≤ v'.sync.size) (fun _ => True) v := by
  refine w.wp_markForwardOnly trivial (Wp.seq (w.wp_deltaFrame.mono (fun _ _ h => h)
    fun _ _ => trivial) ?_)
  intro _ v' hv'
  obtain ⟨⟨⟨size, cardinality, hstate⟩, _, _⟩, hchecked⟩ := hv'
  obtain ⟨⟨size', hsize', hle⟩, hcard⟩ := hchecked hsize
  have hversion : v'.version = v.version := by
    unfold ListView.version
    rw [hstate, ← ListView.version, ← ListView.version]
    exact w.marked_version
  have hfields : v'.state.loadingVersion = v.state.loadingVersion ∧
      v'.state.fileId = v.state.fileId ∧ (w.config.enableReverseIndex = true →
        v'.state.reverseIndexDisabled = v.state.reverseIndexDisabled) := by
    rw [hstate]
    unfold marked
    split
    · exact ⟨rfl, rfl, fun _ => rfl⟩
    · rename_i hrev
      exact ⟨rfl, rfl, fun h => absurd h hrev⟩
  refine .pure trivial ⟨⟨hversion ▸ hver, hfields.1.trans hloading,
    fun hrev => (hfields.2.2 hrev).trans (hindexed hrev), ?_⟩, ?_, ?_⟩
  · rw [hcard, hversion]
    rfl
  · show v'.state.fileId.getD "" = v.state.fileId.getD ""
    rw [hfields.2.1]
  · show task.size ≤ v'.state.size.getD 0
    rw [hsize']
    exact hle

/-! ## Rounds -/

/-- The contents after the producer enqueued a task. -/
def enqueued (db : Db) (task : DerivedTask) : Db :=
  (IdListSyncProducer.enqueueWrites task).foldl Write.apply db

theorem enqueued_load (hne : action ≠ .remove) :
    enqueued db ⟨id, action, some target⟩ = db.setTaskMeta id (loadMeta target) := by
  unfold enqueued
  rw [enqueueWrites_load hne rfl]
  simp [loadWrites, loadMeta, Write.apply, Db.setTaskMeta, TaskMetaHash.set]

theorem taskMetadata_loadMeta (h : StateHash) :
    taskMetadata (loadMeta md) h =
      if md.url = "" then .error (.invalidTask "url is missing")
      else .ok (some (.ofMetadata md)) := by
  have hne : (loadMeta md).isEmpty = false := rfl
  unfold taskMetadata
  rw [hne]
  by_cases hurl : md.url = ""
  · simp [TaskMetadata.fromHash, loadMeta, hurl, Option.filter, Except.map]
  · simp [TaskMetadata.fromHash, loadMeta, hurl, Option.filter, Except.map,
      TaskMetadata.ofMetadata]

/-- One round: a plan for the entry `md`, and a completed execution of it
by a worker that plans again. -/
def Round (origin : String → List UInt8) (id : ListId) (md : IdListMetadata) (db db' : Db) : Prop :=
  ∃ action target done, w.planned db id md = some (action, target) ∧
    Exec (redis origin) (w.runClaimed id) (enqueued db ⟨id, action, some target⟩) db'
      (.ok (.completed done))

/-- Rounds one after the other, each planned from what the last one left. -/
inductive Rounds (origin : String → List UInt8) (id : ListId) (md : IdListMetadata) :
    Nat → Db → Db → Prop
  | zero (db : Db) : Rounds origin id md 0 db db
  | succ {n : Nat} {db db' db'' : Db} (hrounds : Rounds origin id md n db db')
      (hround : w.Round origin id md db' db'') : Rounds origin id md (n + 1) db db''

/-- The worker's action for a plan. -/
def performed : SyncAction → WorkerAction
  | .fullLoad => .fullReload
  | .delta _ => .delta
  | .remove => .remove

/-- The worker resolves the task to the action that was planned. -/
theorem resolve_enqueued (hplan : w.planned db id md = some (action, target))
    {plan : WorkerAction × TaskMetadata}
    (h : w.resolve (enqueued db ⟨id, action, some target⟩) id = .ok (some plan)) :
    plan = (performed action, .ofMetadata target) := by
  rw [enqueued_load (plan_ne_remove hplan)] at h
  unfold resolve at h
  simp only [Db.setTaskMeta_taskMeta, Function.update_self] at h
  have hagain := plan_target hplan
  have hstate : (if (!(db.state id).isEmpty) = true then
      some (ListSyncState.fromHashFields (db.state id)) else none) =
      IdListSyncProducer.parseState (db.state id) := by
    unfold IdListSyncProducer.parseState
    cases (db.state id).isEmpty <;> rfl
  have hexists : (db.setTaskMeta id (loadMeta target)).forwardExists id = db.forwardExists id := rfl
  rw [taskMetadata_loadMeta] at h
  by_cases hurl : target.url = ""
  · rw [if_pos hurl] at h
    simp at h
  · rw [if_neg hurl] at h
    change w.planAction _ _ (.ofMetadata target) _ = _ at h
    unfold planAction at h
    rw [Db.setTaskMeta_state, hstate, hexists] at h
    have hmd : (TaskMetadata.ofMetadata target).asIdListMetadata = target := rfl
    rw [hmd, hagain] at h
    cases action with
    | fullLoad => exact (Option.some.inj (Except.ok.inj h)).symm
    | delta lag => exact (Option.some.inj (Except.ok.inj h)).symm
    | remove => exact absurd rfl (plan_ne_remove hplan)

/-- A round runs the action that was planned, from the view it was planned
in. -/
theorem round_view {Q : ListView → Prop} (hplan : w.planned db id md = some (action, target))
    (hrun : Wp (listRedis origin id)
      (w.runPlanned id (db.view id).sync (performed action) (.ofMetadata target))
      (fun _ v' => Q v') (fun _ => True) (db.view id))
    (h : w.Round origin id md db db') : Q (db'.view id) := by
  obtain ⟨action', target', done, hplan', hexec⟩ := h
  rw [hplan] at hplan'
  obtain ⟨rfl, rfl⟩ := Prod.mk.inj (Option.some.inj hplan')
  have hview : (enqueued db ⟨id, action, some target⟩).view id = db.view id ∧
      (enqueued db ⟨id, action, some target⟩).state id = db.state id := by
    rw [enqueued_load (plan_ne_remove hplan)]
    exact ⟨rfl, rfl⟩
  have hwp : Wp (redis origin) (w.runClaimed id)
      (fun outcome t => outcome = .completed done → Q (t.view id)) (fun _ => True)
      (enqueued db ⟨id, action, some target⟩) := by
    refine w.wp_runClaimed trivial (fun _ t _ => ⟨trivial, by simp⟩) ?_
    intro performed' task hresolve
    obtain ⟨rfl, rfl⟩ := Prod.mk.inj (w.resolve_enqueued hplan hresolve)
    rw [hview.2]
    refine (wp_of_view (Q := fun _ v' => Q v') (X := fun _ => True) ?_).mono
      (fun _ _ h _ => h) fun _ h => h
    rw [hview.1]
    exact hrun
  exact hwp.ok hexec rfl

/-- After a reload there is no plan, or the plan of a delta. -/
theorem planned_after_fullLoad (hplan : w.planned db id md = some (.fullLoad, target))
    (h : w.Round origin id md db db') :
    w.planned db' id md = none ∨ ∃ lag, w.planned db' id md = some (.delta lag, md) := by
  obtain ⟨hchecked, hfile, htime⟩ := w.round_view hplan w.wp_runReload_checked h
  have hfile : (db'.view id).sync.fileId = target.fileId := hfile
  have htarget : target = md ∨ (md.fileId ≠ target.fileId ∧
      md.creationTime ≤ (db'.view id).sync.creationTime) := by
    unfold planned IdListSyncProducer.parseState at hplan
    split at hplan
    · exact .inl (plan_target_none hplan)
    · rcases plan_target_cases hplan with htarget | ⟨rfl, hne, hle⟩
      · exact .inl htarget
      · -- Repaired or reloaded, the committed file keeps its creation time.
        refine .inr ⟨hne, ?_⟩
        rcases htime with htime | htime
        · rw [htime]
          exact hle
        · rw [htime]
          exact hle
  rw [w.planned_of_checked hchecked, hfile]
  rcases htarget with rfl | ⟨hne, hle⟩
  · rw [if_neg (not_not.mpr rfl)]
    split
    · exact .inr ⟨_, rfl⟩
    · exact .inl rfl
  · rw [if_pos hne, if_neg (Nat.not_lt.mpr hle)]
    exact .inl rfl

/-- After a delta there is no plan. -/
theorem planned_after_delta {lag : Nat} (hplan : w.planned db id md = some (.delta lag, target))
    (h : w.Round origin id md db db') : w.planned db' id md = none := by
  have hready : db.version id ≠ "" ∧ target = md ∧ md.fileId = (db.view id).sync.fileId ∧
      (w.config.enableReverseIndex = true → (db.state id).reverseIndexDisabled = false) ∧
      (db.state id).loadingVersion = none ∧ (db.view id).sync.size < md.size := by
    unfold planned IdListSyncProducer.parseState at hplan
    split at hplan
    · simp [planSyncWithReverseIndex, needsWorkWithReverseIndex] at hplan
    · obtain ⟨hver, htarget, hfile, hdisabled, hloading, _, hsize⟩ := plan_delta hplan
      exact ⟨hver, htarget, hfile, hdisabled, hloading, hsize⟩
  obtain ⟨hver, rfl, hfile, hindexed, hloading, hsize⟩ := hready
  obtain ⟨hchecked, hfile', hsize'⟩ :=
    w.round_view hplan (w.wp_runDelta_checked hver hloading hindexed hsize) h
  have hsize' : target.size ≤ (db'.view id).sync.size := hsize'
  rw [w.planned_of_checked hchecked, hfile', if_neg (not_not.mpr hfile),
    if_neg (Nat.not_lt.mpr hsize')]

theorem not_round_of_planned_none (hplan : w.planned db id md = none) :
    ¬ w.Round origin id md db db' := by
  intro ⟨_, _, _, hplan', _⟩
  rw [hplan] at hplan'
  simp at hplan'

/-- Two rounds in a row leave no plan. -/
theorem planned_after_two {db'' : Db} (h : w.Round origin id md db db')
    (h' : w.Round origin id md db' db'') : w.planned db'' id md = none := by
  have hfirst := h
  obtain ⟨action, target, _, hplan, _⟩ := hfirst
  cases action with
  | fullLoad =>
    rcases w.planned_after_fullLoad hplan h with hnone | ⟨lag, hdelta⟩
    · exact absurd h' (w.not_round_of_planned_none hnone)
    · exact w.planned_after_delta hdelta h'
  | delta lag => exact absurd h' (w.not_round_of_planned_none (w.planned_after_delta hplan h))
  | remove => exact absurd rfl (plan_ne_remove hplan)

/-- **At most two rounds**, from any contents. -/
theorem rounds_le_two {n : Nat} (h : w.Rounds origin id md n db db') :
    n ≤ 2 ∧ (n = 2 → w.planned db' id md = none) := by
  induction h with
  | zero db => exact ⟨by omega, by omega⟩
  | succ hrounds hround ih =>
    cases hrounds with
    | zero => exact ⟨by omega, by omega⟩
    | succ hrounds' hround' =>
      have hnone := w.planned_after_two hround' hround
      have hone : _ ≠ 2 := fun htwo => w.not_round_of_planned_none (ih.2 htwo) hround
      exact ⟨by omega, fun _ => hnone⟩

/-- **The planner and the worker converge**, and plan alike. From any
contents, at most two plans are executed before there is none. Planning the
target of a plan gives the plan again, and a delta is planned only for the
committed file, with no load pending. -/
theorem planner_converges :
    (∀ (origin : String → List UInt8) (id : ListId) (md : IdListMetadata) (n : Nat) (db db' : Db),
      w.Rounds origin id md n db db' → n ≤ 2 ∧ (n = 2 → w.planned db' id md = none)) ∧
    ∀ (state : Option ListSyncState) (md target : IdListMetadata) (fwdExists enabled : Bool)
      (action : SyncAction),
      planSyncWithReverseIndex state md fwdExists enabled = some (action, target) →
        planSyncWithReverseIndex state target fwdExists enabled = some (action, target) ∧
        ∀ lag, action = .delta lag → ∃ s, state = some s ∧ target.fileId = s.fileId ∧
          s.version ≠ "" ∧ s.loadingVersion = none := by
  refine ⟨fun origin id md n db db' h => w.rounds_le_two h, ?_⟩
  intro state md target fwdExists enabled action hplan
  refine ⟨plan_target hplan, ?_⟩
  intro lag hdelta
  subst hdelta
  cases state with
  | none => simp [planSyncWithReverseIndex, needsWorkWithReverseIndex] at hplan
  | some s =>
    obtain ⟨hver, rfl, hfile, _, hloading, _⟩ := plan_delta hplan
    exact ⟨s, rfl, hfile, hver, hloading⟩

end IdListSyncWorker

/-! ## A list that takes two rounds -/

/-- A first load that was cut off after its diff had begun, at half of the
file the manifest has now. -/
def halfLoaded : Db :=
  { Db.setState {} smallList
      { loadingVersion := some "F@1", loadingSize := some 3, loadingCardinality := some 1
        diffPartition := some 0 } with
    fwd := fun _ ver => if ver = "F@1" then ⟨{"a"}, false⟩ else {} }

def grownFile : List UInt8 := [43, 97, 10, 43, 98, 10]

def grownEntry : IdListMetadata := ⟨"F", 1, "u", 6⟩

def afterReload : Db :=
  (scripted fun _ => grownFile).after 100 ((smallWorker false).runClaimed smallList)
    (IdListSyncWorker.enqueued halfLoaded ⟨smallList, .fullLoad, some grownEntry⟩) []

def afterDelta : Db :=
  (scripted fun _ => grownFile).after 100 ((smallWorker false).runClaimed smallList)
    (IdListSyncWorker.enqueued afterReload ⟨smallList, .delta 3, some grownEntry⟩)
    [.body ⟨[[43, 98, 10]], none⟩]

theorem planner_converges_halfLoaded :
    (smallWorker false).Rounds (fun _ => grownFile) smallList grownEntry 2 halfLoaded afterDelta ∧
      (smallWorker false).planned afterDelta smallList grownEntry = none := by
  have hreload : (smallWorker false).Round (fun _ => grownFile) smallList grownEntry halfLoaded
      afterReload :=
    ⟨.fullLoad, grownEntry, .fullReload, by decide +kernel,
      (scripted fun _ => grownFile).after_sound (by decide +kernel)⟩
  have hdelta : (smallWorker false).Round (fun _ => grownFile) smallList grownEntry afterReload
      afterDelta :=
    ⟨.delta 3, grownEntry, .delta, by decide +kernel,
      (scripted fun _ => grownFile).after_sound (by decide +kernel)⟩
  have hrounds : (smallWorker false).Rounds (fun _ => grownFile) smallList grownEntry 2 halfLoaded
      afterDelta := .succ (.succ (.zero _) hreload) hdelta
  exact ⟨hrounds, ((smallWorker false).planner_converges.1 _ _ _ 2 _ _ hrounds).2 rfl⟩

end ForwardProxy.IdList
