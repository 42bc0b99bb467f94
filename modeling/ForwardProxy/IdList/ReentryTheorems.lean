/-
ForwardProxy.IdList.ReentryTheorems — lists that leave the manifest and
come back.

A removal deletes reverse-index entries first and the state hash last. One
that stops in between leaves a list that looks committed, and a list that
comes back unchanged gets no task at all. Two kinds of stops are harmless:
before the first entry is deleted, and after the committed forward set is,
since the planner sees the missing set and the index is rebuilt. Along a
run with only such stops (`StopsClean`) every list is present as far as
its state says (`Present`).
-/
import ForwardProxy.IdList.ProducerTheorems
import ForwardProxy.IdList.RotationTheorems

namespace ForwardProxy.IdList

open Effect

/-- One step of a run in reverse mode: a producer tick, with whatever
manifest, the expiry of a task's metadata, or the execution of a task. A
removal may stop anywhere, and `P` is what is asked of one that does; the
other executions complete. -/
inductive ReentryStep (P : Db → ListId → Db → Prop) : Db → Db → Prop
  | tick {db db' : Db} (p : IdListSyncProducer) (origin : String → List UInt8)
      (o : Outcome WorkerError ProducerTickStats)
      (he : Exec (redis origin) p.produceLocked db db' o) : ReentryStep P db db'
  | expired (db : Db) (id : ListId) : ReentryStep P db (db.setTaskMeta id {})
  | execution {db db' : Db} (w : IdListSyncWorker) (origin : String → List UInt8) (id : ListId)
      (a : IdListSyncWorker.WorkerRunOutcome) (hrev : w.config.enableReverseIndex = true)
      (he : Exec (redis origin) (w.runClaimed id) db db' (.ok a)) : ReentryStep P db db'
  | stoppedRemoval {db db' : Db} (w : IdListSyncWorker) (origin : String → List UInt8)
      (id : ListId) (md : TaskMetadata)
      (o : Outcome WorkerError IdListSyncWorker.WorkerRunOutcome)
      (hrev : w.config.enableReverseIndex = true)
      (hplan : w.resolve db id = .ok (some (.remove, md))) (hP : P db id db')
      (he : Exec (redis origin) (w.runClaimed id) db db' o) : ReentryStep P db db'

/-- The removal stopped before it deleted an entry of the reverse index, or
after it deleted the committed forward set. -/
def StopsClean (db : Db) (id : ListId) (db' : Db) : Prop :=
  db'.tag id = db.tag id ∨ (db'.fwd id (db.version id)).members = ∅

/-- An idle list whose index is its committed set, unless that set is
lost. -/
structure Present (v : ListView) : Prop where
  idle : Idle v
  index : v.Lost ∨ v.tag = v.committed
  counted : v.CountSound

variable {w : IdListSyncWorker} {origin : String → List UInt8} {id : ListId} {db db' : Db}
  {md : TaskMetadata} {v v' : ListView}

theorem Settled.present (h : Settled v) (htagged : v.state.WellTagged) (hcount : v.CountSound) :
    Present v :=
  ⟨h.idle htagged, .inr h.index, hcount⟩

theorem Present.congr (h : Present v) (hstate : v'.state = v.state) (hfwd : v'.fwd = v.fwd)
    (htag : v'.tag = v.tag) : Present v' := by
  obtain ⟨state, fwd, tok, tag⟩ := v
  obtain ⟨state', fwd', tok', tag'⟩ := v'
  simp only at hstate hfwd htag
  subst hstate hfwd htag
  exact ⟨h.idle.congr rfl rfl, h.index, h.counted⟩

/-- A list without state and token is present: there is nothing of it. -/
theorem present_of_erased (hok : db.Ok) (hstate : db.state id = {})
    (htoken : (db.dict id.skh).token id.list = none) : Present (db.view id) := by
  have hview : (db.view id).state = {} := hstate
  refine (IdListSyncWorker.settled_of_erased hok hstate htoken).present ?_ ?_
  · rw [hview]
    intro hver
    exact absurd rfl hver
  · intro _
    exact tagged_tokenOf_none hok htoken

/-! ## Executions that complete -/

theorem present_reload (hok : db.Ok) (hrev : w.config.enableReverseIndex = true)
    (hplan : w.resolve db id = .ok (some (.fullReload, md))) (h : Present (db.view id))
    {a : IdListSyncWorker.WorkerRunOutcome}
    (he : Exec (redis origin) (w.runClaimed id) db db' (.ok a)) : Present (db'.view id) := by
  have hbetween : RotatesBetween db id md (origin md.url) := by
    intro _ _
    rcases h.index with hlost | hindex
    · exact .inl hlost
    · rw [view_tag hok] at hindex
      refine .inr ?_
      rw [hindex]
      exact Set.left_mem_uIcc
  obtain ⟨hsettled, htagged, _, hcount⟩ := settled_rotation hok hrev hplan h.idle hbetween he
  exact hsettled.present htagged hcount

theorem countSound_deltaAt (hver : v.version ≠ "") (hindex : v.tag = v.committed)
    (h : v.CountSound) (file : List UInt8) (start i : Nat) :
    (IdListSyncWorker.deltaAt v v.version file start i).CountSound := by
  intro hzero
  show ((IdListSyncWorker.fwdAt v v.version file start i : Finset String) : Set String) = ∅
  by_cases hi : i = 0
  · subst hi
    -- Nothing was applied: the count is the one before.
    have hempty := h hzero
    rw [hindex, ListView.committed, if_neg hver] at hempty
    rw [IdListSyncWorker.fwdAt_zero]
    exact hempty
  · have hstate : (IdListSyncWorker.deltaAt v v.version file start i).state.cardinality =
        some (IdListSyncWorker.fwdAt v v.version file start i).card := by
      show (IdListSyncWorker.deltaState v v.version file start i).cardinality = _
      unfold IdListSyncWorker.deltaState
      rw [if_neg hi]
    rw [hstate, Option.getD_some] at hzero
    rw [Finset.card_eq_zero.mp hzero]
    simp

theorem present_delta (hrev : w.config.enableReverseIndex = true)
    (hplan : w.resolve db id = .ok (some (.delta, md))) (h : Present (db.view id))
    {a : IdListSyncWorker.WorkerRunOutcome}
    (he : Exec (redis origin) (w.runClaimed id) db db' (.ok a)) : Present (db'.view id) := by
  have hready := w.resolve_delta hplan
  have hver : (db.view id).version ≠ "" := hready.version
  have hindex : (db.view id).tag = (db.view id).committed := by
    refine h.index.resolve_left ?_
    intro ⟨_, hcard, hempty⟩
    have hexists := hready.exists_of_card hcard
    have hempty : (db.fwd id (db.version id)).members = ∅ := hempty
    unfold Db.forwardExists at hexists
    simp [hempty] at hexists
  have htag : (db.view id).tag = (db.view id).fwd (db.version id) := by
    rw [hindex, ListView.committed, if_neg hver]
    rfl
  have hwp : Wp (redis origin) (w.runClaimed id) _ _ db :=
    w.wp_planned hplan (wp_of_view (w.wp_runDelta hrev htag))
  obtain ⟨_, _, hview⟩ := hwp.ok he
  rw [hview]
  exact (IdListSyncWorker.settled_deltaAt (h.idle.settled hindex) hver _ _ _).present
    (IdListSyncWorker.tagged_deltaAt h.idle.tagged _ _ _ _)
    (countSound_deltaAt hver hindex h.counted _ _ _)

theorem present_remove (hok : db.Ok) (hplan : w.resolve db id = .ok (some (.remove, md)))
    {a : IdListSyncWorker.WorkerRunOutcome}
    (he : Exec (redis origin) (w.runClaimed id) db db' (.ok a)) : Present (db'.view id) := by
  have hwp : Wp (redis origin)
      (w.runPlanned id (ListSyncState.fromHashFields (db.state id)) .remove md)
      (fun _ t => Settled (t.view id) ∧ t.state id = {}) (fun _ => True) db := by
    intro t o he'
    refine ⟨fun a ha => ?_, fun _ => trivial⟩
    subst ha
    exact w.settled_runRemove hok he'
  obtain ⟨hsettled, hstate⟩ := (w.wp_planned hplan hwp).ok he
  have hview : (db'.view id).state = {} := hstate
  refine hsettled.present ?_ ?_
  · rw [hview]
    intro hver
    exact absurd rfl hver
  · intro _
    have hindex := hsettled.index
    unfold ListView.committed ListView.version at hindex
    rw [hview] at hindex
    simpa using hindex

theorem present_completed (hok : db.Ok) (hrev : w.config.enableReverseIndex = true)
    (h : Present (db.view id)) {a : IdListSyncWorker.WorkerRunOutcome}
    (he : Exec (redis origin) (w.runClaimed id) db db' (.ok a)) : Present (db'.view id) := by
  by_cases hsome : ∃ plan, w.resolve db id = .ok (some plan)
  · obtain ⟨⟨action, md⟩, hplan⟩ := hsome
    cases action with
    | fullReload => exact present_reload hok hrev hplan h he
    | delta => exact present_delta hrev hplan h he
    | remove => exact present_remove hok hplan he
  · have hwp : Wp (redis origin) (w.runClaimed id) (fun _ t => Present (t.view id))
        (fun _ => True) db := by
      refine w.wp_runClaimed trivial (fun _ t ht => ?_) fun action md hplan => ?_
      · rw [IdListSyncWorker.Persisted.view ht]
        exact ⟨trivial, h⟩
      · exact absurd ⟨_, hplan⟩ hsome
    exact hwp.ok he

/-! ## Removals that stop -/

/-- A list of no members has an empty set and an empty index. -/
theorem Present.fwd_of_zero (h : Present v) (hver : v.version ≠ "")
    (hzero : v.state.cardinality.getD (v.state.size.getD 0) = 0) : v.fwd v.version = ∅ := by
  have hindex : v.tag = v.committed := by
    refine h.index.resolve_left fun hlost => ?_
    exact absurd hzero (Nat.pos_iff_ne_zero.mp hlost.2.1)
  rw [h.counted hzero, ListView.committed, if_neg hver] at hindex
  simpa using hindex.symm

/-- A committed set that is there is the index. -/
theorem Present.tag_of_fwd (h : Present v) (hver : v.version ≠ "") (hfwd : v.fwd v.version ≠ ∅) :
    v.tag = v.fwd v.version := by
  have hindex : v.tag = v.committed := h.index.resolve_left fun hlost => hfwd hlost.2.2
  rw [hindex, ListView.committed, if_neg hver]

/-- A removal that stopped clean: the marker may be set, entries may be
gone, and so may the committed set. -/
theorem present_stopped (h : Present v) {removal : Bool}
    (hstate : v'.state = { v.state with removalFanoutComplete := removal })
    (htag : v'.tag ⊆ v.tag)
    (hfwd : v'.fwd v.version = v.fwd v.version ∨ v'.fwd v.version = ∅)
    (hclean : v'.tag = v.tag ∨ v'.fwd v.version = ∅) : Present v' := by
  have hversion : v'.version = v.version := by
    unfold ListView.version
    rw [hstate]
  have hempty : v.tag = ∅ → v'.tag = ∅ := fun h => Set.subset_eq_empty htag h
  have hcount : v'.state.cardinality.getD (v'.state.size.getD 0) =
      v.state.cardinality.getD (v.state.size.getD 0) := by
    rw [hstate]
  have hcommitted : v'.committed = if v.version = "" then ∅ else v'.fwd v.version := by
    unfold ListView.committed
    rw [hversion]
  refine ⟨⟨?_, ?_, ?_, ?_, ?_, ?_, ?_, ?_⟩, ?_, ?_⟩
  · rw [hstate]
    exact h.idle.loadingVersion
  · rw [hstate]
    exact h.idle.loadingSize
  · rw [hstate]
    exact h.idle.loadingCardinality
  · rw [hstate]
    exact h.idle.diffPartition
  · rw [hstate]
    exact h.idle.reconcileRequired
  · rw [hstate]
    exact h.idle.reverseIndexDisabled
  · rw [hstate]
    exact h.idle.tagged
  · intro hver
    exact hempty (h.idle.unborn (hversion.symm.trans hver))
  · by_cases hver : v.version = ""
    · right
      rw [hempty (h.idle.unborn hver), hcommitted, if_pos hver]
      simp
    · by_cases hzero : v.state.cardinality.getD (v.state.size.getD 0) = 0
      · -- A list of no members: both sets are empty before and after.
        have hset : v'.fwd v.version = ∅ := by
          rcases hfwd with hfwd | hfwd
          · rw [hfwd, h.fwd_of_zero hver hzero]
          · exact hfwd
        right
        rw [hempty (h.counted hzero), hcommitted, if_neg hver, hset]
        simp
      · by_cases hgone : v'.fwd v.version = ∅
        · left
          refine ⟨?_, ?_, ?_⟩
          · rw [hversion]
            exact hver
          · rw [hcount]
            exact Nat.pos_of_ne_zero hzero
          · rw [hversion]
            exact hgone
        · right
          have hsame := hfwd.resolve_right hgone
          have hindex := h.tag_of_fwd hver (hsame ▸ hgone)
          rw [hclean.resolve_right hgone, hindex, hcommitted, if_neg hver, hsame]
  · intro hzero
    rw [hcount] at hzero
    exact hempty (h.counted hzero)

theorem present_stoppedRemoval (hok : db.Ok) (hrev : w.config.enableReverseIndex = true)
    (hplan : w.resolve db id = .ok (some (.remove, md))) (h : Present (db.view id))
    (hclean : StopsClean db id db')
    {o : Outcome WorkerError IdListSyncWorker.WorkerRunOutcome}
    (he : Exec (redis origin) (w.runClaimed id) db db' o) : Present (db'.view id) := by
  have htidy := w.runClaimed_tidy hok he
  have hclean : (db'.view id).tag = (db.view id).tag ∨
      (db'.view id).fwd (db.view id).version = ∅ := by
    rw [view_tag hok, view_tag htidy.1]
    exact hclean
  have hwp : Wp (redis origin) (w.runClaimed id) (fun _ t => t = db' → Present (t.view id))
      (fun t => t = db' → Present (t.view id)) db := by
    refine w.wp_planned hplan ?_
    intro t o' he'
    suffices hkeep : t = db' → Present (t.view id) from ⟨fun _ _ => hkeep, fun _ => hkeep⟩
    intro ht
    subst ht
    obtain ⟨db₁, o₁, _, hsame, he₁, _⟩ := w.exec_runRemove hok he'
    obtain rfl := hsame hrev
    rcases w.exec_applyRemove hok he₁ with ⟨_, o₂, hne, he₂⟩ | ⟨db₂, he₂, _, _, k, _, hdb, _⟩
    · -- The fan-out was cut off.
      obtain ⟨s, hs, removal, hview⟩ := (wp_of_view (w.wp_clearIndex hrev)).not_ok he₂ hne
      rw [hview] at hclean ⊢
      exact present_stopped h rfl hs (.inl rfl) hclean
    · -- The final pipeline was.
      have hview := (wp_of_view (w.wp_clearIndex hrev)).ok he₂
      have htag : (db₂.view id).tag ⊆ (db₁.view id).tag := by
        rw [hview]
        show (if _ then _ else _ : Set String) ⊆ _
        split
        · exact subset_rfl
        · exact IdListSyncWorker.fannedOut_subset _
      have hstate : db₂.state id = { db₁.state id with removalFanoutComplete := true } :=
        congrArg ListView.state hview
      have hfwd : (db₂.view id).fwd = (db₁.view id).fwd := by
        rw [hview]
        rfl
      rw [hdb] at hclean ⊢
      rcases IdListSyncWorker.cleanup_stopped db₂ k with
        ⟨fwd, hfwd', hview'⟩ | ⟨htoken, hgone, hstate' | hstate'⟩
      · rw [hview'] at hclean ⊢
        refine present_stopped h hstate htag ?_ hclean
        rcases hfwd' (db₁.view id).version with hf | hf
        · exact .inl (hf.trans (congrFun hfwd _))
        · exact .inr hf
      · have hempty := tagged_tokenOf_none (hdb ▸ htidy.1) htoken
        refine present_stopped h (hstate'.trans hstate) ?_ (.inr hgone) (.inr hgone)
        intro m hm
        exact absurd (hempty ▸ hm : m ∈ (∅ : Set String)) (by simp)
      · exact present_of_erased (hdb ▸ htidy.1) hstate' htoken
  exact hwp.always (fun _ _ h => h) he rfl

/-! ## Whole runs -/

def AllPresent (db : Db) : Prop := db.Ok ∧ ∀ id, Present (db.view id)

theorem allPresent_execution (h : AllPresent db)
    {o : Outcome WorkerError IdListSyncWorker.WorkerRunOutcome}
    (he : Exec (redis origin) (w.runClaimed id) db db' o) (hown : Present (db'.view id)) :
    AllPresent db' := by
  have htidy := w.runClaimed_tidy h.1 he
  refine ⟨htidy.1, fun j => ?_⟩
  by_cases hj : j = id
  · exact hj ▸ hown
  · obtain ⟨hstate, hfwd, htag⟩ := htidy.other h.1 hj
    exact (h.2 j).congr hstate hfwd htag

theorem allPresent_step (h : AllPresent db) (hstep : ReentryStep StopsClean db db') :
    AllPresent db' := by
  cases hstep with
  | tick p origin o he =>
    have hticked := p.ticked_produceLocked he
    refine ⟨hticked.ok h.1, fun id => ?_⟩
    rw [hticked.view]
    exact h.2 id
  | expired id => exact ⟨h.1.congr rfl rfl, h.2⟩
  | execution w origin id a hrev he =>
    exact allPresent_execution h he (present_completed h.1 hrev (h.2 id) he)
  | stoppedRemoval w origin id md o hrev hplan hP he =>
    exact allPresent_execution h he (present_stoppedRemoval h.1 hrev hplan (h.2 id) hP he)

theorem reach_allPresent (hrun : Relation.ReflTransGen (ReentryStep StopsClean) {} db) :
    AllPresent db := by
  induction hrun with
  | refl => exact ⟨empty_ok, fun _ => present_of_erased empty_ok rfl rfl⟩
  | tail _ hstep ih => exact allPresent_step ih hstep

/-- **Planning is sound after interrupted removals** that stopped clean:
where the planner has no work for an entry of the committed file, the
reverse index of the list is its committed forward set. -/
theorem reentry_sound (hrun : Relation.ReflTransGen (ReentryStep StopsClean) {} db)
    (md : IdListMetadata)
    (hfile : md.fileId = (ListSyncState.fromHashFields (db.state id)).fileId)
    (hplan : planSyncWithReverseIndex (IdListSyncProducer.parseState (db.state id)) md
      (db.forwardExists id) true = none) : db.tag id = db.committed id := by
  obtain ⟨hok, hpresent⟩ := reach_allPresent hrun
  obtain ⟨_, _, _, hlost⟩ := quiet_of_plan_none hfile hplan
  rw [← view_tag hok id]
  exact (hpresent id).index.resolve_left hlost

/-! The list is loaded and leaves the manifest, and its removal is cut off.
Then the list is back, unchanged. -/

def manifestF : IdListManifest := [("l", ⟨"F", 1, "u", 3⟩)]

/-- One tick with the given manifest; `known` are the registered lists. -/
def tickOnce (manifest : IdListManifest) (known : List String) (db : Db) : Db :=
  (scripted smallOrigin).after 100 (smallProducer manifest).produceLocked db [.order known]

theorem tickOnce_exec {manifest : IdListManifest} {known : List String} {db : Db}
    {stats : ProducerTickStats}
    (h : ((scripted smallOrigin).run 100 (smallProducer manifest).produceLocked db
      [.order known]).map Prod.snd = some (.ok stats)) :
    Exec (redis smallOrigin) (smallProducer manifest).produceLocked db (tickOnce manifest known db)
      (.ok stats) :=
  (scripted smallOrigin).after_sound h

def tickedLoad : Db := tickOnce manifestF [] {}

def tickedLoaded : Db :=
  (scripted smallOrigin).after 100 ((smallWorker true).runClaimed smallList) tickedLoad
    [.body ⟨[[43, 97, 10]], none⟩, .pages [["a"]]]

/-- The tick that no longer lists the list. -/
def tickedAbsent : Db := tickOnce [] ["l"] tickedLoaded

theorem ticked_runs :
    Exec (redis smallOrigin) (smallProducer manifestF).produceLocked {} tickedLoad
      (.ok ⟨1, 0, 1, 0, 1⟩) ∧
    Exec (redis smallOrigin) ((smallWorker true).runClaimed smallList) tickedLoad tickedLoaded
      (.ok (.completed .fullReload)) ∧
    Exec (redis smallOrigin) (smallProducer []).produceLocked tickedLoaded tickedAbsent
      (.ok ⟨0, 1, 1, 0, 1⟩) ∧
    (smallWorker true).resolve tickedAbsent smallList =
      .ok (some (.remove, ⟨.remove, "F", 1, "u", 3⟩)) :=
  ⟨tickOnce_exec (by decide +kernel), (scripted smallOrigin).after_sound (by decide +kernel),
    tickOnce_exec (by decide +kernel), by decide +kernel⟩

/-- The removal, after the deletion of the committed forward set. -/
def removalAfterForward : Db :=
  (scripted smallOrigin).after 12 ((smallWorker true).runClaimed smallList) tickedAbsent
    [.pages [["a"]]]

/-- The list is back before its removal is resumed, and is gone once more. -/
def tickedBack : Db := tickOnce manifestF ["l"] removalAfterForward

def tickedGone : Db := tickOnce [] ["l"] tickedBack

def removedWhole : Db :=
  (scripted smallOrigin).after 100 ((smallWorker true).runClaimed smallList) tickedGone []

def tickedAgain : Db := tickOnce manifestF [] removedWhole

def loadedAgain : Db :=
  (scripted smallOrigin).after 100 ((smallWorker true).runClaimed smallList) tickedAgain
    [.body ⟨[[43, 97, 10]], none⟩, .pages [["a"]]]

/-- The first removal stops clean, the second completes, and the list comes
back after each. -/
theorem reentry_sound_load : loadedAgain.tag smallList = loadedAgain.committed smallList := by
  obtain ⟨hfirst, hload, habsent, hplan⟩ := ticked_runs
  have hloaded : Relation.ReflTransGen (ReentryStep StopsClean) {} tickedLoaded :=
    .tail (.single (.tick _ _ _ hfirst)) (.execution _ _ _ _ rfl hload)
  have hclean : StopsClean tickedAbsent smallList removalAfterForward := .inr (by decide +kernel)
  have hstopped : Exec (redis smallOrigin) ((smallWorker true).runClaimed smallList) tickedAbsent
      removalAfterForward .stopped :=
    (scripted smallOrigin).after_sound (by decide +kernel)
  have hlisted : Exec (redis smallOrigin) (smallProducer manifestF).produceLocked
      removalAfterForward tickedBack (.ok ⟨0, 0, 1, 0, 1⟩) :=
    tickOnce_exec (by decide +kernel)
  have hback : Relation.ReflTransGen (ReentryStep StopsClean) {} tickedBack :=
    .tail (.tail (.tail hloaded (.tick _ _ _ habsent))
      (.stoppedRemoval _ _ _ _ _ rfl hplan hclean hstopped)) (.tick _ _ _ hlisted)
  have hgone : Exec (redis smallOrigin) (smallProducer []).produceLocked tickedBack tickedGone
      (.ok ⟨0, 1, 1, 0, 1⟩) :=
    tickOnce_exec (by decide +kernel)
  have hwhole : Exec (redis smallOrigin) ((smallWorker true).runClaimed smallList) tickedGone
      removedWhole (.ok (.completed .remove)) :=
    (scripted smallOrigin).after_sound (by decide +kernel)
  have hremoved : Relation.ReflTransGen (ReentryStep StopsClean) {} removedWhole :=
    .tail (.tail hback (.tick _ _ _ hgone)) (.execution _ _ _ _ rfl hwhole)
  have hrelisted : Exec (redis smallOrigin) (smallProducer manifestF).produceLocked removedWhole
      tickedAgain (.ok ⟨0, 0, 1, 0, 1⟩) :=
    tickOnce_exec (by decide +kernel)
  have hreloaded : Exec (redis smallOrigin) ((smallWorker true).runClaimed smallList) tickedAgain
      loadedAgain (.ok (.completed .fullReload)) :=
    (scripted smallOrigin).after_sound (by decide +kernel)
  have hagain : Relation.ReflTransGen (ReentryStep StopsClean) {} loadedAgain :=
    .tail (.tail hremoved (.tick _ _ _ hrelisted)) (.execution _ _ _ _ rfl hreloaded)
  exact reentry_sound hagain ⟨"F", 1, "u", 3⟩ (by decide +kernel) (by decide +kernel)

/-- The removal, after the SREM of the only member. -/
def removalCutOff : Db :=
  (scripted smallOrigin).after 9 ((smallWorker true).runClaimed smallList) tickedAbsent
    [.pages [["a"]]]

/-- The tick that lists it again. -/
def tickedReentry : Db := tickOnce manifestF ["l"] removalCutOff

/-- Without the condition the planner can have no work for a list whose
index is empty. -/
theorem reentry_after_cut_off_removal : ¬ ∀ (id : ListId) (db : Db) (md : IdListMetadata),
    Relation.ReflTransGen (ReentryStep fun _ _ _ => True) {} db →
    md.fileId = (ListSyncState.fromHashFields (db.state id)).fileId →
    planSyncWithReverseIndex (IdListSyncProducer.parseState (db.state id)) md
      (db.forwardExists id) true = none → db.tag id = db.committed id := by
  intro hclaim
  obtain ⟨hfirst, hload, habsent, hplan⟩ := ticked_runs
  have hcut : Exec (redis smallOrigin) ((smallWorker true).runClaimed smallList) tickedAbsent
      removalCutOff .stopped :=
    (scripted smallOrigin).after_sound (by decide +kernel)
  have hreentry : Exec (redis smallOrigin) (smallProducer manifestF).produceLocked removalCutOff
      tickedReentry (.ok ⟨0, 0, 1, 0, 0⟩) :=
    tickOnce_exec (by decide +kernel)
  have hrun : Relation.ReflTransGen (ReentryStep fun _ _ _ => True) {} tickedReentry :=
    .tail (.tail (.tail (.tail (.single (.tick _ _ _ hfirst)) (.execution _ _ _ _ rfl hload))
      (.tick _ _ _ habsent)) (.stoppedRemoval _ _ _ _ _ rfl hplan trivial hcut))
      (.tick _ _ _ hreentry)
  have hindex := hclaim smallList tickedReentry ⟨"F", 1, "u", 3⟩ hrun (by decide +kernel)
    (by decide +kernel)
  have hmem : "a" ∈ tickedReentry.committed smallList := by decide +kernel
  have htag : "a" ∈ tickedReentry.tag smallList := by
    rw [hindex]
    exact hmem
  obtain ⟨t, htoken, ht⟩ := htag
  have htoken : (tickedReentry.dict "n").token "l" = some t := htoken
  have hone : (tickedReentry.dict "n").token "l" = some 1 := by decide +kernel
  obtain rfl : 1 = t := Option.some.inj (hone.symm.trans htoken)
  revert ht
  show 1 ∈ tickedReentry.member ("n", "a") → False
  decide +kernel

end ForwardProxy.IdList
