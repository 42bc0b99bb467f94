/-
ForwardProxy.IdList.TaskTheorems — one task of the worker, from the
metadata it reads to the action it runs.

`resolve` is the decision of `run_claimed` as a function of the contents.
A run of `run_claimed` is a run of the action it resolves to, from the
same contents; a task without an action at most makes the committed set
persistent (`runClaimed_cases`). The rest of the module says what each
action does to the view of its list.
-/
import ForwardProxy.IdList.IndexInvariant
import ForwardProxy.IdList.PlanningTheorems
import ForwardProxy.IdList.Producer
import ForwardProxy.IdList.RemoveTheorems

namespace ForwardProxy.IdList

open Effect

/-- Whether the committed forward set is there, as planning asks for it. -/
def Db.forwardExists (db : Db) (id : ListId) : Bool :=
  if !(db.state id).isEmpty && db.version id ≠ "" then
    decide ((db.fwd id (db.version id)).members ≠ ∅)
  else false

/-- Where the planner has no work for an entry of the committed file,
nothing is pending, skipped or lost. -/
theorem quiet_of_plan_none {db : Db} {id : ListId} {md : IdListMetadata} {enabled : Bool}
    (hfile : md.fileId = (ListSyncState.fromHashFields (db.state id)).fileId)
    (hplan : planSyncWithReverseIndex (IdListSyncProducer.parseState (db.state id)) md
      (db.forwardExists id) enabled = none) :
    db.version id ≠ "" ∧ (enabled = true → (db.state id).reverseIndexDisabled = false) ∧
      (db.state id).loadingVersion = none ∧ ¬ (db.view id).Lost := by
  have hplan' : planSyncWithReverseIndex (some (ListSyncState.fromHashFields (db.state id))) md
      (db.forwardExists id) enabled = none := by
    unfold IdListSyncProducer.parseState at hplan
    split at hplan
    · simp [planSyncWithReverseIndex, needsWorkWithReverseIndex] at hplan
    · exact hplan
  obtain ⟨hver, hdis, hload, hcard, _⟩ := plan_none hfile hplan'
  refine ⟨hver, hdis, hload, ?_⟩
  rintro ⟨_, hpos, hempty⟩
  have hexists := hcard hpos
  have hempty : (db.fwd id (db.version id)).members = ∅ := hempty
  simp [Db.forwardExists, hempty] at hexists

namespace IdListSyncWorker

variable (w : IdListSyncWorker) {id : ListId} {origin : String → List UInt8} {db db' : Db}

/-- What the task of `id` comes to in the contents `db`: an action and the
metadata it runs with, nothing, or an error. -/
def resolve (db : Db) (id : ListId) : Except WorkerError (Option (WorkerAction × TaskMetadata)) :=
  match taskMetadata (db.taskMeta id) (db.state id) with
  | .error e => .error e
  | .ok none => .ok none
  | .ok (some md) =>
    match md.op with
    | .remove => .ok (some (.remove, md))
    | .load => w.planAction (!(db.state id).isEmpty) (ListSyncState.fromHashFields (db.state id))
        md (db.forwardExists id)

/-! ## The run -/

/-- A PERSIST of the committed set, or nothing. -/
def Persisted (id : ListId) (db db' : Db) : Prop :=
  db' = db ∨ db' = (Write.persistFwd id (db.version id)).apply db

/-- A task that at most made the committed set persistent shows in no
view. -/
theorem Persisted.view (h : Persisted id db db') (j : ListId) : db'.view j = db.view j := by
  rcases h with rfl | rfl
  · rfl
  · rw [view_write _ _ _ rfl]
    rfl

theorem wp_forwardExists {β : Type} {f : Bool → Redis β} {Q : β → Db → Prop} {X : Db → Prop}
    (h : Wp (redis origin) (f (db.forwardExists id)) Q X db) :
    Wp (redis origin) (forwardExists id (!(db.state id).isEmpty)
      (ListSyncState.fromHashFields (db.state id)) >>= f) Q X db := by
  have hver : (ListSyncState.fromHashFields (db.state id)).version = db.version id := rfl
  unfold forwardExists
  unfold Db.forwardExists at h
  rw [hver]
  split
  · rename_i hcond
    rw [if_pos hcond] at h
    refine Wp.cmdBind h.exit fun r t hstep => ?_
    obtain ⟨rfl, rfl⟩ := hstep
    exact h
  · rename_i hcond
    rw [if_neg hcond] at h
    exact h

theorem wp_persist {β : Type} {f : Unit → Redis β} {Q : β → Db → Prop} {X : Db → Prop}
    (h : ∀ t, Persisted id db t → Wp (redis origin) (f ()) Q X t) :
    Wp (redis origin) (ensureCurrentVersionPersisted id
      (ListSyncState.fromHashFields (db.state id)) >>= f) Q X db := by
  have hX := (h db (.inl rfl)).exit
  refine Wp.seq (P := fun _ => Persisted id db) ?_ fun _ t ht => h t ht
  refine Wp.ite (fun _ => .pure hX (.inl rfl)) fun _ => ?_
  refine Wp.cmdBind hX fun r t hstep => ?_
  obtain ⟨_, rfl⟩ := hstep
  refine Wp.when (fun _ => ?_) (fun _ => hX) fun _ => .inl rfl
  refine Wp.cmd hX fun _ t' hstep => ?_
  obtain rfl : t' = _ := hstep
  exact ⟨(h _ (.inr rfl)).exit, .inr rfl⟩

/-- After the planning of a load: it has been dropped, or there is a plan
for the contents it was made in. -/
def Planned (id : ListId) (db : Db) (md : TaskMetadata) (Q : WorkerRunOutcome → Db → Prop)
    (X : Db → Prop) : Option (WorkerAction × TaskMetadata) → Db → Prop
  | none, t => X t ∧ Q .dropped t
  | some plan, t => t = db ∧ w.planAction (!(db.state id).isEmpty)
      (ListSyncState.fromHashFields (db.state id)) md (db.forwardExists id) = .ok (some plan)

/-- **What a task does**: it runs the action it resolves to, or it is
dropped, with a PERSIST at most. -/
theorem wp_runClaimed {Q : WorkerRunOutcome → Db → Prop} {X : Db → Prop} (hX : X db)
    (hdropped : (∀ plan, w.resolve db id ≠ .ok (some plan)) → ∀ t, Persisted id db t →
      X t ∧ Q .dropped t)
    (hplanned : ∀ action md, w.resolve db id = .ok (some (action, md)) →
      Wp (redis origin) (w.runPlanned id (ListSyncState.fromHashFields (db.state id)) action md)
        Q X db) :
    Wp (redis origin) (w.runClaimed id) Q X db := by
  unfold resolve at hplanned hdropped
  refine Wp.cmdBind hX fun metaFields db₁ hs => ?_
  obtain ⟨rfl, rfl⟩ := hs
  refine Wp.cmdBind hX fun stateFields db₂ hs => ?_
  obtain ⟨rfl, rfl⟩ := hs
  cases hmeta : taskMetadata (db₂.taskMeta id) (db₂.state id) with
  | error e => exact .throw hX
  | ok task =>
    cases task with
    | none =>
      simp only [hmeta] at hdropped
      exact .pure hX (hdropped (by simp) db₂ (.inl rfl)).2
    | some md =>
      simp only [hmeta] at hplanned hdropped ⊢
      cases hop : md.op with
      | remove =>
        simp only [hop] at hplanned ⊢
        exact hplanned _ _ rfl
      | load =>
        simp only [hop] at hplanned hdropped ⊢
        refine Wp.seq (P := w.Planned id db₂ md Q X) ?_ ?_
        · refine wp_forwardExists ?_
          cases hplan : w.planAction (!(db₂.state id).isEmpty)
            (ListSyncState.fromHashFields (db₂.state id)) md (db₂.forwardExists id) with
          | error e => exact .throw hX
          | ok plan =>
            cases plan with
            | none =>
              have hdone := hdropped (by simp [hplan])
              exact wp_persist fun t ht => .pure (hdone t ht).1 (hdone t ht)
            | some plan => exact .pure hX ⟨rfl, hplan⟩
        · rintro (_ | ⟨action, target⟩) t ht
          · exact .pure ht.1 ht.2
          · obtain ⟨rfl, hplan⟩ := ht
            exact hplanned action target hplan

/-- An execution does what its plan says. -/
theorem wp_planned {action : WorkerAction} {md : TaskMetadata}
    {Q : WorkerRunOutcome → Db → Prop} {X : Db → Prop}
    (hplan : w.resolve db id = .ok (some (action, md)))
    (h : Wp (redis origin) (w.runPlanned id (ListSyncState.fromHashFields (db.state id)) action md)
      Q X db) : Wp (redis origin) (w.runClaimed id) Q X db := by
  refine w.wp_runClaimed h.exit (fun hnone => absurd hplan (hnone _)) fun action' md' hplan' => ?_
  obtain ⟨rfl, rfl⟩ : action = action' ∧ md = md' := by
    simpa [hplan] using hplan'
  exact h

/-! ## What the task was resolved to -/

variable {md : TaskMetadata}

theorem isEmpty_version {h : StateHash} (he : h.isEmpty = true) : h.version.getD "" = "" := by
  have : h = {} := by simpa [StateHash.isEmpty] using he
  rw [this]
  rfl

/-- A load task whose plan is `action`. -/
theorem resolve_load {action : WorkerAction} (h : w.resolve db id = .ok (some (action, md)))
    (hne : action ≠ .remove) : ∃ task : TaskMetadata,
      w.planAction (!(db.state id).isEmpty) (ListSyncState.fromHashFields (db.state id)) task
        (db.forwardExists id) = .ok (some (action, md)) := by
  unfold resolve at h
  split at h
  · simp at h
  · simp at h
  · rename_i task _
    split at h
    · simp only [Except.ok.injEq, Option.some.injEq, Prod.mk.injEq] at h
      exact absurd h.1.symm hne
    · exact ⟨task, h⟩

theorem resolve_fullReload (h : w.resolve db id = .ok (some (.fullReload, md))) :
    FullLoadReason (ListSyncState.fromHashFields (db.state id)) md.asIdListMetadata
      (db.forwardExists id) w.config.enableReverseIndex := by
  obtain ⟨task, hplan⟩ := w.resolve_load h (by simp)
  unfold planAction at hplan
  split at hplan
  · simp at hplan
  · rename_i target hsync
    simp only [Except.ok.injEq, Option.some.injEq, Prod.mk.injEq, true_and] at hplan
    obtain rfl : target = md.asIdListMetadata := by rw [← hplan]; rfl
    by_cases he : (db.state id).isEmpty = true
    · exact .initial (isEmpty_version he)
    · have he : (db.state id).isEmpty = false := by simpa using he
      simp only [he, Bool.not_false, if_true] at hsync
      exact plan_fullLoad hsync
  · simp at hplan
  · simp at hplan

/-- What a delta may rely on. -/
structure DeltaReady (s : ListSyncState) (md : TaskMetadata) (fwdExists enabled : Bool) :
    Prop where
  version : s.version ≠ ""
  fileId : md.fileId = s.fileId
  enabled : enabled = true → s.reverseIndexDisabled = false
  loadingVersion : s.loadingVersion = none
  exists_of_card : 0 < s.cardinality.getD s.size → fwdExists = true
  size : s.size < md.size

theorem resolve_delta (h : w.resolve db id = .ok (some (.delta, md))) :
    DeltaReady (ListSyncState.fromHashFields (db.state id)) md (db.forwardExists id)
      w.config.enableReverseIndex := by
  obtain ⟨task, hplan⟩ := w.resolve_load h (by simp)
  obtain ⟨_, _, hsync⟩ := planAction_delta hplan
  obtain ⟨hver, htarget, hfile, hdis, hload, hcard, hsize⟩ := plan_delta hsync
  rw [← htarget] at hfile hsize
  exact ⟨hver, hfile, hdis, hload, hcard, hsize⟩

/-! ## The actions on the view -/

variable {v : ListView}

/-- The view after the index-mode marker of a forward-only run. -/
def marked (v : ListView) : ListView :=
  if w.config.enableReverseIndex then v
  else v.setState { v.state with reverseIndexDisabled := true }

theorem wp_markForwardOnly {β : Type} {f : Unit → Redis β} {Q : β → ListView → Prop}
    {X : ListView → Prop} (hX : X v) (h : Wp (listRedis origin id) (f ()) Q X (w.marked v)) :
    Wp (listRedis origin id) (w.markForwardOnly id >>= f) Q X v := by
  have hexit := h.exit
  unfold marked at h hexit
  refine Wp.seq (P := fun _ v' => v' = w.marked v) ?_ ?_
  · unfold marked
    refine Wp.ite (fun hrev => .pure hX ?_) fun hrev => ?_
    · rw [if_pos hrev]
    · rw [if_neg hrev] at hexit ⊢
      refine wp_write rfl hX (wp_write_end rfl hX ?_ ?_)
      all_goals rw [ListView.after_hsetDictDisabled, ListView.after_hsetState]
      · exact hexit
      · rfl
  · intro _ v' hv'
    unfold marked at hv'
    rw [hv']
    exact h

/-- The reload a task runs. -/
def reloadRun (v : ListView) (md : TaskMetadata) (file : List UInt8) : ReloadRun :=
  ⟨w, w.marked v, v.state.reverseIndexDisabled, md, file⟩

theorem reloadRun_state (file : List UInt8) :
    (w.reloadRun v md file).state = ListSyncState.fromHashFields v.state := by
  unfold ReloadRun.state reloadRun marked
  split <;> rfl

theorem wp_runReload (hready : (w.reloadRun v md (origin md.url)).DiffReady) :
    Wp (listRedis origin id)
      (w.runPlanned id (ListSyncState.fromHashFields v.state) .fullReload md)
      (fun _ v' => ((w.reloadRun v md (origin md.url)).repairs ∧
          (w.reloadRun v md (origin md.url)).RepairDone v') ∨
        (w.reloadRun v md (origin md.url)).ReloadDone v')
      (fun v' => v' = v ∨ ((w.reloadRun v md (origin md.url)).repairs ∧
          (w.reloadRun v md (origin md.url)).RepairExit v') ∨
        (w.reloadRun v md (origin md.url)).ReloadExit v') v := by
  refine w.wp_markForwardOnly (.inl rfl) ?_
  have hrun : Wp (listRedis origin id) _ _ _ _ :=
    ReloadRun.wp_applyFullReload (R := w.reloadRun v md (origin md.url)) rfl hready
  rw [reloadRun_state] at hrun
  refine Wp.seq (hrun.mono (fun _ _ h => h) fun _ h => .inr h) ?_
  intro _ v' hv'
  refine .pure (.inr ?_) hv'
  rcases hv' with ⟨hrep, hdone⟩ | ⟨checkpoint, cursor, u, hu, hcount, rfl⟩
  · rw [hdone]
    exact .inl ⟨hrep, .repaired⟩
  · exact .inr (.finished checkpoint cursor u hu hcount)

/-! ## Tasks and the index invariant -/

theorem marked_version : (w.marked v).version = v.version := by
  unfold marked
  split <;> rfl

theorem marked_lost : (w.marked v).Lost ↔ v.Lost := by
  unfold marked
  split <;> rfl

theorem good_markForwardOnly (h : Good w v) : Good w (w.marked v) := by
  unfold marked
  split
  · exact h
  · exact ⟨h.idle, h.tagged, fun _ => .inr (.inl rfl), .inl (.inl rfl)⟩

theorem modeKnown_reloadRun (file : List UInt8) : (w.reloadRun v md file).ModeKnown := by
  unfold ReloadRun.ModeKnown
  by_cases hrev : w.config.enableReverseIndex = true
  · have hview : (w.reloadRun v md file).v = v := if_pos hrev
    rw [hview]
    exact if_pos hrev ▸ rfl
  · have hview : (w.reloadRun v md file).v =
        v.setState { v.state with reverseIndexDisabled := true } := if_neg hrev
    rw [hview]
    exact if_neg hrev ▸ rfl

/-- The committed set is missing when planning finds it missing. -/
theorem lost_of_forwardExists (hver : db.version id ≠ "")
    (hcard : 0 < (ListSyncState.fromHashFields (db.state id)).cardinality.getD
      (ListSyncState.fromHashFields (db.state id)).size)
    (h : db.forwardExists id = false) : (db.view id).Lost := by
  have hne : (db.state id).isEmpty = false := by
    by_contra he
    exact hver (isEmpty_version (by simpa using he))
  have hempty : (db.fwd id (db.version id)).members = ∅ := by
    unfold Db.forwardExists at h
    simpa [hne, hver] using h
  exact ⟨hver, hcard, hempty⟩

/-- The committed version is reloaded only for a reason the reload sees. -/
theorem recovers_of_resolve (h : w.resolve db id = .ok (some (.fullReload, md)))
    (htagged : (db.state id).WellTagged) (file : List UInt8) :
    (w.reloadRun (db.view id) md file).Recovers := by
  intro hnew
  have hversion : md.versionTag = db.version id := hnew.trans w.marked_version
  have hver : db.version id ≠ "" := by
    rw [← hversion]
    exact versionTag_ne_empty _
  have hsame := versionTag_inj (hversion.trans (htagged hver))
  cases w.resolve_fullReload h with
  | initial hempty => exact absurd hempty hver
  | rotation hfile => exact absurd hsame.1 hfile
  | reindex _ hrev hdis => exact .inl ⟨hrev, hdis⟩
  | pending _ hload =>
    refine .inr (.inl ?_)
    show (w.marked (db.view id)).state.loadingVersion ≠ none
    unfold marked
    split
    · exact hload
    · exact hload
  | lost _ hcard hmissing =>
    exact .inr (.inr (w.marked_lost.mpr (lost_of_forwardExists hver hcard hmissing)))

/-- A reload keeps the index invariant however far it gets, and completed
in reverse mode it leaves the list settled. -/
theorem wp_runReload_good (h : w.resolve db id = .ok (some (.fullReload, md)))
    (hgood : Good w (db.view id)) :
    Wp (listRedis origin id)
      (w.runPlanned id (ListSyncState.fromHashFields (db.state id)) .fullReload md)
      (fun _ v' => Good w v' ∧ (w.config.enableReverseIndex = true → Settled v'))
      (Good w) (db.view id) := by
  have hmode : (w.reloadRun (db.view id) md (origin md.url)).ModeKnown :=
    w.modeKnown_reloadRun (origin md.url)
  have hstart : Good w (w.marked (db.view id)) := w.good_markForwardOnly hgood
  have hrecovers := w.recovers_of_resolve h hgood.tagged (origin md.url)
  refine (w.wp_runReload (ReloadRun.diffReady_of_good hmode hstart hrecovers)).mono ?_ ?_
  · intro _ v' hv'
    rcases hv' with ⟨hrep, hdone⟩ | hdone
    · refine ⟨ReloadRun.good_repair hmode hstart hrep ?_, fun _ =>
        ReloadRun.settled_repair hstart hrep hdone⟩
      rw [hdone]
      exact .repaired
    · refine ⟨?_, fun hrev => ReloadRun.settled_reload hrev hdone⟩
      obtain ⟨checkpoint, cursor, u, hu, hcount, rfl⟩ := hdone
      exact ReloadRun.good_exit hmode hstart hrecovers (.finished checkpoint cursor u hu hcount)
  · intro v' hv'
    rcases hv' with rfl | ⟨hrep, hexit⟩ | hexit
    · exact hgood
    · exact ReloadRun.good_repair hmode hstart hrep hexit
    · exact ReloadRun.good_exit hmode hstart hrecovers hexit

/-- A delta in reverse mode starts from a settled list. -/
theorem settled_of_resolve_delta (hrev : w.config.enableReverseIndex = true)
    (h : w.resolve db id = .ok (some (.delta, md))) (hgood : Good w (db.view id)) :
    Settled (db.view id) := by
  have hready := w.resolve_delta h
  refine hgood.settled hready.loadingVersion (hready.enabled hrev) ?_
  rintro ⟨hver, hcard, hempty⟩
  have hexists := hready.exists_of_card hcard
  have hempty : (db.fwd id (db.version id)).members = ∅ := hempty
  unfold Db.forwardExists at hexists
  simp [hempty] at hexists

/-- A delta in forward-only mode keeps the invariant however far it gets:
the index-mode marker stands before its first write. -/
theorem wp_runDelta_forwardOnly (hrev : w.config.enableReverseIndex = false)
    (hgood : Good w (db.view id)) :
    Wp (listRedis origin id)
      (w.runPlanned id (ListSyncState.fromHashFields (db.state id)) .delta md)
      (fun _ => Good w) (Good w) (db.view id) := by
  refine w.wp_markForwardOnly hgood ?_
  have hframe : ∀ v', DeltaFrame (w.marked (db.view id))
      (ListSyncState.fromHashFields (db.state id)).version v' → Good w v' := by
    intro v' hv'
    obtain ⟨⟨size, card, hstate⟩, _, _⟩ := hv'
    have hmarked := w.good_markForwardOnly hgood
    have hdis : v'.state.reverseIndexDisabled = true := by
      rw [hstate]
      unfold marked
      rw [hrev]
      rfl
    refine ⟨fun hload => ?_, ?_, fun _ => .inr (.inl hdis), .inl (.inl hdis)⟩
    · rw [hstate] at hload ⊢
      exact hmarked.idle hload
    · rw [hstate]
      exact hmarked.tagged
  refine Wp.seq (w.wp_deltaFrame.mono (fun _ _ h => h) hframe) ?_
  exact fun _ v' hv' => .pure (hframe v' hv'.1) (hframe v' hv'.1)

/-- A completed delta in reverse mode brings both indexes to the end of the
file, from an index that was the committed set. -/
theorem wp_runDelta (hrev : w.config.enableReverseIndex = true)
    (htag : (db.view id).tag = (db.view id).fwd (db.version id)) :
    Wp (listRedis origin id)
      (w.runPlanned id (ListSyncState.fromHashFields (db.state id)) .delta md)
      (fun _ v' => (db.state id).size.getD 0 ≤ (origin md.url).length ∧
        md.size ≤ offsetAt (origin md.url) ((db.state id).size.getD 0)
          (linesFrom (origin md.url) ((db.state id).size.getD 0)).length ∧
        v' = deltaAt (db.view id) (db.version id) (origin md.url) ((db.state id).size.getD 0)
          (linesFrom (origin md.url) ((db.state id).size.getD 0)).length)
      (fun _ => True) (db.view id) := by
  refine w.wp_markForwardOnly trivial ?_
  unfold marked
  rw [if_pos hrev]
  refine Wp.seq ((w.wp_applyDelta hrev htag).mono (fun _ _ h => h) fun _ h => h) ?_
  exact fun _ v' hv' => .pure trivial hv'.2

/-- The two fields a delta checkpoints. -/
theorem deltaAt_state (v : ListView) (ver : String) (file : List UInt8) (start i : Nat) :
    ∃ size cardinality, (deltaAt v ver file start i).state = { v.state with size, cardinality } := by
  show ∃ size cardinality, deltaState v ver file start i = { v.state with size, cardinality }
  unfold deltaState
  split
  · exact ⟨v.state.size, v.state.cardinality, rfl⟩
  · exact ⟨_, _, rfl⟩

theorem tagged_deltaAt (h : v.state.WellTagged) (ver : String) (file : List UInt8)
    (start i : Nat) : (deltaAt v ver file start i).state.WellTagged := by
  obtain ⟨size, card, hstate⟩ := deltaAt_state v ver file start i
  rw [hstate]
  exact h

theorem settled_deltaAt (h : Settled v) (hver : v.version ≠ "") (file : List UInt8)
    (start i : Nat) : Settled (deltaAt v v.version file start i) := by
  obtain ⟨size, card, hstate⟩ := deltaAt_state v v.version file start i
  have hversion : (deltaAt v v.version file start i).version = v.version := by
    have hver' := congrArg StateHash.version hstate
    exact congrArg (fun x => Option.getD x "") hver'
  have hindex : (deltaAt v v.version file start i).tag =
      (deltaAt v v.version file start i).committed := by
    unfold ListView.committed
    rw [hversion, if_neg hver]
    simp [deltaAt]
  refine ⟨hindex, ?_, ?_, ?_, ?_, ?_, ?_⟩
  all_goals rw [hstate]
  · exact h.loadingVersion
  · exact h.loadingSize
  · exact h.loadingCardinality
  · exact h.diffPartition
  · exact h.reconcileRequired
  · exact h.reverseIndexDisabled

/-- A removal runs after the index-mode marker, from contents that differ
from the ones it was planned in by that marker only. -/
theorem exec_runRemove (hok : db.Ok) {state : ListSyncState}
    {o : Outcome WorkerError WorkerRunOutcome}
    (he : Exec (redis origin) (w.runPlanned id state .remove md) db db' o) :
    ∃ db₁ o₁, Local id db none db₁ ∧ (w.config.enableReverseIndex = true → db₁ = db) ∧
      Exec (redis origin) (w.applyRemove id state) db₁ db' o₁ ∧ (∀ a, o = .ok a → o₁ = .ok ()) := by
  have hmark : Wp (redis origin) (w.markForwardOnly id)
      (fun _ t => Local id db none t ∧ (w.config.enableReverseIndex = true → t = db))
      (fun t => Local id db none t ∧ (w.config.enableReverseIndex = true → t = db)) db := by
    by_cases hrev : w.config.enableReverseIndex = true
    · refine Wp.ite (fun _ => ?_) fun h => absurd hrev h
      exact .pure ⟨Local.refl hok id, fun _ => rfl⟩ ⟨Local.refl hok id, fun _ => rfl⟩
    · refine (w.keeps_markForwardOnly db (Local.refl hok id)).mono ?_ ?_
      · exact fun _ t ht => ⟨ht, fun h => absurd h hrev⟩
      · exact fun t ht => ⟨ht, fun h => absurd h hrev⟩
  rcases exec_bind_cases he with ⟨o₁, he₁, hne₁, hne⟩ | ⟨_, db₁, he₁, he⟩
  · obtain ⟨hlocal, hsame⟩ := hmark.not_ok he₁ hne₁
    exact ⟨db', .stopped, hlocal, hsame, .stop _ _, fun a ha => absurd ha (hne a)⟩
  · obtain ⟨hlocal, hsame⟩ := hmark.ok he₁
    rcases exec_bind_cases he with ⟨o₂, he₂, hne₂, hne⟩ | ⟨_, db₂, he₂, he⟩
    · exact ⟨db₁, o₂, hlocal, hsame, he₂, fun a ha => absurd ha (hne a)⟩
    · obtain ⟨rfl, _⟩ := exec_pure_cases he
      exact ⟨db₁, .ok (), hlocal, hsame, he₂, fun _ _ => rfl⟩

/-- A list without state and without token is settled. -/
theorem settled_of_erased (hok : db.Ok) (hstate : db.state id = {})
    (htoken : (db.dict id.skh).token id.list = none) : Settled (db.view id) := by
  have htag : (db.view id).tag = ∅ := tagged_tokenOf_none hok htoken
  have hview : (db.view id).state = {} := hstate
  have hindex : (db.view id).tag = (db.view id).committed := by
    unfold ListView.committed ListView.version
    rw [htag, hview]
    simp
  refine ⟨hindex, ?_, ?_, ?_, ?_, ?_, ?_⟩
  all_goals rw [hview]

/-- A completed removal leaves nothing of the list. -/
theorem settled_runRemove (hok : db.Ok) {state : ListSyncState} {a : WorkerRunOutcome}
    (he : Exec (redis origin) (w.runPlanned id state .remove md) db db' (.ok a)) :
    Settled (db'.view id) ∧ db'.state id = {} := by
  obtain ⟨db₁, o₁, hlocal, _, he₁, ho⟩ := w.exec_runRemove hok he
  rw [ho a rfl] at he₁
  have htidy : Tidy id db₁ db' := (w.keeps_applyRemove hlocal.ok).ok he₁
  rcases w.exec_applyRemove hlocal.ok he₁ with ⟨hne, _⟩ | ⟨db₂, _, _, _, k, _, hdb, hk⟩
  · exact absurd rfl (hne ())
  · have herased : Erased id state ((db₁.dict id.skh).token id.list) _ := (cleanup_erased db₂).1
    rw [hk () rfl, List.take_length] at hdb
    rw [← hdb] at herased
    exact ⟨settled_of_erased htidy.1 herased.state herased.token, herased.state⟩

end IdListSyncWorker

end ForwardProxy.IdList
