/-
ForwardProxy.IdList.RemovalOutcomeTheorems — what a removal that returns
has removed.

The final pipeline deletes everything the list has of its own, and nothing
in a removal touches another list. The reverse index is different: a
removal deletes the entries it finds through the forward set, all entries
when it does not trust that set, and none at all when an earlier removal
left its fan-out marker. `RemovalCovers` says when this reaches every
entry; it is exactly the condition (`removed_iff`), whatever ran before.
-/
import Mathlib.Logic.Relation
import ForwardProxy.IdList.Script
import ForwardProxy.IdList.TaskTheorems

namespace ForwardProxy.IdList

open Effect

/-- The history of the lists: tasks in reverse mode that stop anywhere,
task metadata that changes, and forward sets that expire. -/
inductive StopStep : Db → Db → Prop
  | task (db : Db) (id : ListId) (h : TaskMetaHash) : StopStep db (db.setTaskMeta id h)
  | expired (db : Db) (id : ListId) (ver : String) : StopStep db (db.setFwd id ver {})
  | execution {db db' : Db} (w : IdListSyncWorker) (origin : String → List UInt8) (id : ListId)
      (o : Outcome WorkerError IdListSyncWorker.WorkerRunOutcome)
      (hrev : w.config.enableReverseIndex = true)
      (he : Exec (redis origin) (w.runClaimed id) db db' o) : StopStep db db'

variable {w : IdListSyncWorker} {origin : String → List UInt8} {id : ListId} {db db' : Db}

theorem reach_ok (h : Relation.ReflTransGen StopStep {} db) : db.Ok := by
  induction h with
  | refl => exact empty_ok
  | tail _ hstep ih =>
    cases hstep with
    | task id fields => exact ih.congr rfl rfl
    | expired id ver => exact ih.congr rfl rfl
    | execution w origin id o hrev he => exact (w.runClaimed_tidy ih he).1

/-- Nothing is left of the list in `db'`: no entry under the token it had in
`db`, no dictionary field, no key, no registration. -/
structure Gone (id : ListId) (db db' : Db) : Prop where
  index : ∀ t, (db.dict id.skh).token id.list = some t → ∀ m, t ∉ db'.member (id.skh, m)
  keys : IdListSyncWorker.Erased id (ListSyncState.fromHashFields (db.state id))
    ((db.dict id.skh).token id.list) db'

/-- Nothing of another list or another company has changed. -/
structure Untouched (id : ListId) (db db' : Db) : Prop where
  state : ∀ j, j ≠ id → db'.state j = db.state j
  fwd : ∀ j, j ≠ id → db'.fwd j = db.fwd j
  taskMeta : ∀ j, j ≠ id → db'.taskMeta j = db.taskMeta j
  token : ∀ j, j ≠ id → (db'.dict j.skh).token j.list = (db.dict j.skh).token j.list
  name : ∀ j, j ≠ id → ∀ t, (db.dict j.skh).token j.list = some t →
    (db'.dict j.skh).name t = (db.dict j.skh).name t
  index : ∀ j, j ≠ id → ∀ t, (db.dict j.skh).token j.list = some t →
    ∀ m, t ∈ db'.member (j.skh, m) ↔ t ∈ db.member (j.skh, m)
  listed : ∀ j, j ≠ id → (j.list ∈ db'.all j.skh ↔ j.list ∈ db.all j.skh)
  dicts : ∀ skh, skh ≠ id.skh → db'.dict skh = db.dict skh
  members : ∀ skh, skh ≠ id.skh → ∀ m, db'.member (skh, m) = db.member (skh, m)
  lists : ∀ skh, skh ≠ id.skh → db'.all skh = db.all skh
  ready : ∀ skh, skh ≠ id.skh → db'.ready skh = db.ready skh

theorem Tidy.untouched (hok : db.Ok) (h : Tidy id db db') : Untouched id db db' := by
  obtain ⟨_, hframe⟩ := h
  refine ⟨hframe.state, hframe.fwd, hframe.taskMeta, fun j hj => hframe.token_other hj, ?_, ?_, ?_,
    hframe.dict, ?_, ?_, hframe.ready⟩
  · intro j hj t ht
    by_cases hskh : j.skh = id.skh
    · have hne := token_ne_of_ne hok hj hskh ht
      rw [hskh]
      exact hframe.name t hne
    · rw [hframe.dict _ hskh]
  · intro j hj t ht m
    exact hframe.member j.skh m t fun hskh => token_ne_of_ne hok hj hskh ht
  · intro j hj
    exact hframe.all j.skh j.list fun hskh => list_ne_of_ne hj hskh
  · intro skh hskh m
    ext t
    exact hframe.member skh m t fun h => absurd h hskh
  · intro skh hskh
    ext list
    exact hframe.all skh list fun h => absurd h hskh

/-- A removal that starts in `db` reaches every entry of the list: its
fan-out is marked as done and no entry is left, or the removal scans all
member sets, or every entry belongs to a member of the forward set. -/
def RemovalCovers (db : Db) (id : ListId) : Prop :=
  if (db.state id).removalFanoutComplete then db.tag id = ∅
  else IdListSyncWorker.removalScans (db.view id) = true ∨
    db.tag id ⊆ (db.fwd id (db.version id)).members

theorem covers_iff (hok : db.Ok) : RemovalCovers db id ↔
    (if (db.state id).removalFanoutComplete = true then (db.view id).tag
      else IdListSyncWorker.fannedOut (db.view id)) = ∅ := by
  unfold RemovalCovers IdListSyncWorker.fannedOut
  rw [← view_tag hok id]
  split
  · rfl
  · split
    · rename_i hscan
      simp [hscan]
    · rename_i hscan
      simp only [hscan, Bool.false_eq_true, false_or]
      exact Set.sdiff_eq_empty.symm

/-- The entries a completed removal leaves under the token of the list. -/
theorem member_applyRemove (hok : db.Ok) (hrev : w.config.enableReverseIndex = true)
    (he : Exec (redis origin) (w.applyRemove id (ListSyncState.fromHashFields (db.state id)))
      db db' (.ok ())) :
    IdListSyncWorker.Erased id (ListSyncState.fromHashFields (db.state id))
        ((db.dict id.skh).token id.list) db' ∧
      ∀ t, (db.dict id.skh).token id.list = some t → ∀ m, t ∈ db'.member (id.skh, m) ↔
        m ∈ (if (db.state id).removalFanoutComplete = true then (db.view id).tag
          else IdListSyncWorker.fannedOut (db.view id)) := by
  rcases w.exec_applyRemove hok he with ⟨hne, _⟩ | ⟨db₁, he₁, _, htoken, k, _, hdb, hk⟩
  · exact absurd rfl (hne ())
  rw [hk () rfl, List.take_length] at hdb
  subst hdb
  obtain ⟨herased, hmember⟩ := @IdListSyncWorker.cleanup_erased id
    (ListSyncState.fromHashFields (db.state id)) ((db.dict id.skh).token id.list) db₁
  refine ⟨herased, ?_⟩
  intro t ht m
  have hview := (wp_of_view (w.wp_clearIndex hrev)).ok he₁
  have htag := congrArg ListView.tag hview
  have htok : db₁.tokenOf id = t := by
    rw [Db.tokenOf, htoken, ht]
    rfl
  rw [hmember]
  have hmem : t ∈ db₁.member (id.skh, m) ↔ m ∈ (db₁.view id).tag := by
    rw [← htok]
    exact Iff.rfl
  rw [hmem, htag, ht]
  simp only [reduceCtorEq, or_false]
  exact Iff.rfl

/-- **A completed removal**: everything of the list is gone and nothing
else has changed, if and only if the removal reached every entry of the
reverse index. -/
theorem removed_iff (hrun : Relation.ReflTransGen StopStep {} db)
    (hrev : w.config.enableReverseIndex = true)
    (he : Exec (redis origin) (w.applyRemove id (ListSyncState.fromHashFields (db.state id)))
      db db' (.ok ())) :
    (Gone id db db' ∧ Untouched id db db') ↔ RemovalCovers db id := by
  have hok := reach_ok hrun
  obtain ⟨herased, hmember⟩ := member_applyRemove hok hrev he
  rw [covers_iff hok]
  constructor
  · intro ⟨hgone, _⟩
    cases htoken : (db.dict id.skh).token id.list with
    | none =>
      -- A list without a token has no entries.
      have hempty : (db.view id).tag = ∅ := tagged_tokenOf_none hok htoken
      have hfan : IdListSyncWorker.fannedOut (db.view id) = ∅ :=
        Set.subset_eq_empty (IdListSyncWorker.fannedOut_subset _) hempty
      rw [hempty, hfan, ite_self]
    | some t =>
      refine Set.eq_empty_iff_forall_notMem.mpr ?_
      intro m hm
      exact hgone.index t htoken m ((hmember t htoken m).mpr hm)
  · intro hempty
    refine ⟨⟨?_, herased⟩, ((w.keeps_applyRemove hok).ok he).untouched hok⟩
    intro t ht m hm
    have hin := (hmember t ht m).mp hm
    rw [hempty] at hin
    exact hin

/-- The removal of a list by the worker of the exhibited runs; `as` are the
pages of its scan. -/
def removeSmall (db : Db) (as : List Answer) : Db :=
  (scripted smallOrigin).after 100 ((smallWorker true).applyRemove smallList
    (ListSyncState.fromHashFields (db.state smallList))) db as

theorem removed_iff_load :
    (Gone smallList smallLoaded (removeSmall smallLoaded [.pages [["a"]]]) ∧
      Untouched smallList smallLoaded (removeSmall smallLoaded [.pages [["a"]]])) ↔
        RemovalCovers smallLoaded smallList := by
  have hrun : Relation.ReflTransGen StopStep {} smallLoaded :=
    .tail (.single (.task _ _ _)) (.execution _ _ _ _ rfl small_load)
  have he : Exec (redis smallOrigin) ((smallWorker true).applyRemove smallList
      (ListSyncState.fromHashFields (smallLoaded.state smallList))) smallLoaded
      (removeSmall smallLoaded [.pages [["a"]]]) (.ok ()) :=
    (scripted smallOrigin).after_sound (by decide +kernel)
  exact removed_iff hrun rfl he

/-! The loaded list leaves the manifest, and its removal stops right after
the fan-out marker. The list comes back with a second line, which a delta
applies, and leaves again: this time the fan-out is skipped. -/

def removeMeta : TaskMetaHash := { op := some .remove }

/-- After the stopped removal: no entry left, the marker set. -/
def removalStopped : Db :=
  (scripted smallOrigin).after 11 ((smallWorker true).runClaimed smallList)
    (smallLoaded.setTaskMeta smallList removeMeta) [.pages [["a"]]]

def grownOrigin : String → List UInt8 := fun _ => [43, 97, 10, 43, 98, 10]

/-- After the delta of the line `+b`. -/
def regrown : Db :=
  (scripted grownOrigin).after 100 ((smallWorker true).runClaimed smallList)
    (removalStopped.setTaskMeta smallList (loadMeta ⟨"F", 1, "u", 6⟩))
    [.body ⟨[[43, 98, 10]], none⟩]

/-- A removal that finds a marker of an earlier one can leave entries. -/
theorem removal_after_regrowth : ¬ ∀ (w : IdListSyncWorker) (origin : String → List UInt8)
    (id : ListId) (db db' : Db), Relation.ReflTransGen StopStep {} db →
    w.config.enableReverseIndex = true →
    Exec (redis origin) (w.applyRemove id (ListSyncState.fromHashFields (db.state id)))
      db db' (.ok ()) → Gone id db db' ∧ Untouched id db db' := by
  intro hclaim
  have hstopped : Exec (redis smallOrigin) ((smallWorker true).runClaimed smallList)
      (smallLoaded.setTaskMeta smallList removeMeta) removalStopped .stopped :=
    (scripted smallOrigin).after_sound (by decide +kernel)
  have hgrown : Exec (redis grownOrigin) ((smallWorker true).runClaimed smallList)
      (removalStopped.setTaskMeta smallList (loadMeta ⟨"F", 1, "u", 6⟩)) regrown
      (.ok (.completed .delta)) :=
    (scripted grownOrigin).after_sound (by decide +kernel)
  have hrun : Relation.ReflTransGen StopStep {} regrown :=
    .tail (.tail (.tail (.tail (.tail (.single (.task _ _ _)) (.execution _ _ _ _ rfl small_load))
      (.task _ _ _)) (.execution _ _ _ _ rfl hstopped)) (.task _ _ _))
      (.execution _ _ _ _ rfl hgrown)
  have he : Exec (redis smallOrigin) ((smallWorker true).applyRemove smallList
      (ListSyncState.fromHashFields (regrown.state smallList))) regrown (removeSmall regrown [])
      (.ok ()) :=
    (scripted smallOrigin).after_sound (by decide +kernel)
  have hgone := (hclaim (smallWorker true) smallOrigin smallList _ _ hrun rfl he).1
  have hkept : 1 ∈ (removeSmall regrown []).member (smallList.skh, "b") := by decide +kernel
  exact hgone.index 1 (by decide +kernel) "b" hkept

end ForwardProxy.IdList
