/-
ForwardProxy.IdList.HistoryTheorems — whole histories of completed tasks.

`HistoryStep` is one step of a deployment in reverse mode in which every
task completes: files grow, tasks are written, workers with any batch,
scan and partition sizes execute them. `Synced` is what every list keeps:
it is settled, and its committed set is the replay of the committed file
up to the committed size. The two readers then agree.
-/
import Mathlib.Logic.Relation
import ForwardProxy.IdList.Membership
import ForwardProxy.IdList.Script
import ForwardProxy.IdList.TaskTheorems

namespace ForwardProxy.IdList

open Effect

/-- The bytes of each file of each list. -/
abbrev Files : Type := ListId → String → List UInt8

/-- Files are only appended to. -/
def Files.Grows (files files' : Files) : Prop := ∀ id fileId, files id fileId <+: files' id fileId

/-- A list that is settled, with the committed set the committed file
describes. -/
structure Synced (file : String → List UInt8) (v : ListView) : Prop where
  settled : Settled v
  tagged : v.state.WellTagged
  content : v.version ≠ "" →
    Boundary (file (v.state.fileId.getD "")) (v.state.size.getD 0) ∧
      v.fwd v.version =
        replay (changes ((file (v.state.fileId.getD "")).take (v.state.size.getD 0)))

structure World where
  db : Db := {}
  files : Files

inductive HistoryStep : World → World → Prop
  | grow (db : Db) {files files' : Files} (h : files.Grows files') :
      HistoryStep ⟨db, files⟩ ⟨db, files'⟩
  | task (db : Db) (files : Files) (id : ListId) (h : TaskMetaHash) :
      HistoryStep ⟨db, files⟩ ⟨db.setTaskMeta id h, files⟩
  /-- A task runs to completion. Its URL serves the file it names. -/
  | execution {db db' : Db} {files : Files} (w : IdListSyncWorker)
      (origin : String → List UInt8) (id : ListId) (a : IdListSyncWorker.WorkerRunOutcome)
      (hrev : w.config.enableReverseIndex = true)
      (hserves : ∀ action md, w.resolve db id = .ok (some (action, md)) →
        origin md.url = files id md.fileId)
      (he : Exec (redis origin) (w.runClaimed id) db db' (.ok a)) :
      HistoryStep ⟨db, files⟩ ⟨db', files⟩

/-! ## One task -/

theorem Synced.grow {file file' : String → List UInt8} {v : ListView} (h : Synced file v)
    (hgrow : ∀ fileId, file fileId <+: file' fileId) : Synced file' v := by
  refine ⟨h.settled, h.tagged, fun hver => ?_⟩
  obtain ⟨hb, hfwd⟩ := h.content hver
  refine ⟨hb.mono (hgrow _), ?_⟩
  obtain ⟨tail, htail⟩ := hgrow (v.state.fileId.getD "")
  rw [hfwd, ← htail, List.take_append_of_le_length hb.1]

theorem Synced.congr {file : String → List UInt8} {v v' : ListView} (h : Synced file v)
    (hstate : v'.state = v.state) (hfwd : v'.fwd = v.fwd) (htag : v'.tag = v.tag) :
    Synced file v' := by
  obtain ⟨state, fwd, tok, tag⟩ := v
  obtain ⟨state', fwd', tok', tag'⟩ := v'
  simp only at hstate hfwd htag
  subst hstate hfwd htag
  obtain ⟨hs, ht, hc⟩ := h
  exact ⟨⟨hs.index, hs.loadingVersion, hs.loadingSize, hs.loadingCardinality, hs.diffPartition,
    hs.reconcileRequired, hs.reverseIndexDisabled⟩, ht, hc⟩

/-- The set of a load that did not resume is the replay of its file. -/
theorem ReloadRun.Loaded.replay_eq {R : ReloadRun} {checkpoint cursor : Nat} {u : ListView}
    (hu : R.Loaded checkpoint cursor u) (hresume : R.resume = false) :
    Boundary R.file checkpoint ∧ u.fwd R.newVer = replay (changes (R.file.take checkpoint)) := by
  have hstart : R.start = 0 := by
    unfold ReloadRun.start
    rw [hresume]
    rfl
  have hempty : R.started.fwd R.newVer = ∅ := by
    unfold ReloadRun.started
    rw [hresume]
    simp
  have hzero := boundary_zero R.file
  cases hu with
  | resumed _ h => simp [hresume] at h
  | skipped =>
    rw [hstart]
    refine ⟨hzero, ?_⟩
    show R.started.fwd R.newVer = _
    rw [hempty]
    rfl
  | streamed =>
    rw [hstart]
    refine ⟨hzero.offsetAt _, ?_⟩
    have hfwd : ((IdListSyncWorker.loadAt R.started R.newVer R.file 0 R.lines R.lines).diffed
        R.started.tag 0).fwd R.newVer =
        IdListSyncWorker.fwdAt R.started R.newVer R.file 0 R.lines := by
      simp [ListView.diffed, IdListSyncWorker.loadAt]
    rw [hfwd, changes_offsetAt hzero, replay_append]
    unfold IdListSyncWorker.fwdAt
    rw [hempty]
    rfl

variable {w : IdListSyncWorker} {origin : String → List UInt8} {id : ListId} {db db' : Db}
  {file : String → List UInt8} {md : TaskMetadata}

/-- A completed reload of a synced list. -/
theorem synced_reload (hrev : w.config.enableReverseIndex = true)
    (hplan : w.resolve db id = .ok (some (.fullReload, md))) (hfile : origin md.url = file md.fileId)
    (h : Synced file (db.view id)) :
    Wp (listRedis origin id)
      (w.runPlanned id (ListSyncState.fromHashFields (db.state id)) .fullReload md)
      (fun _ v' => Synced file v') (fun _ => True) (db.view id) := by
  have hgood := h.settled.good w h.tagged
  have hmode : (w.reloadRun (db.view id) md (origin md.url)).ModeKnown :=
    w.modeKnown_reloadRun (origin md.url)
  have hview : (w.reloadRun (db.view id) md (origin md.url)).v = db.view id := if_pos hrev
  have hstart : Good w (w.reloadRun (db.view id) md (origin md.url)).v := by
    rw [hview]
    exact hgood
  have hready := ReloadRun.diffReady_of_good hmode hstart
    (w.recovers_of_resolve hplan h.tagged (origin md.url))
  refine (w.wp_runReload hready).mono ?_ fun _ _ => trivial
  rintro _ v' (⟨hrep, _⟩ | hdone)
  · have hdis : (db.view id).state.reverseIndexDisabled = true := hrep.2.1
    simp [h.settled.reverseIndexDisabled] at hdis
  · have hsettled := ReloadRun.settled_reload hrev hdone
    obtain ⟨checkpoint, cursor, u, hu, _, rfl⟩ := hdone
    have hresume : (w.reloadRun (db.view id) md (origin md.url)).resume = false := by
      have hnone : (w.reloadRun (db.view id) md (origin md.url)).state.loadingVersion = none := by
        rw [w.reloadRun_state]
        exact h.settled.loadingVersion
      simp [ReloadRun.resume, ReloadRun.matchingLoad, hnone]
    obtain ⟨hb, hfwd⟩ := hu.replay_eq hresume
    have hbody : (w.reloadRun (db.view id) md (origin md.url)).file = file md.fileId := hfile
    rw [hbody] at hb hfwd
    exact ⟨hsettled, fun _ => rfl, fun _ => ⟨hb, hfwd⟩⟩

/-- A delta moves the checkpoint and the set together. -/
theorem content_deltaAt {v : ListView} {file : List UInt8}
    (hb : Boundary file (v.state.size.getD 0))
    (hfwd : v.fwd v.version = replay (changes (file.take (v.state.size.getD 0)))) (i : Nat) :
    Boundary file
        ((IdListSyncWorker.deltaAt v v.version file (v.state.size.getD 0) i).state.size.getD 0) ∧
      (IdListSyncWorker.deltaAt v v.version file (v.state.size.getD 0) i).fwd v.version =
        replay (changes (file.take
          ((IdListSyncWorker.deltaAt v v.version file (v.state.size.getD 0) i).state.size.getD 0))) := by
  have hsize : (IdListSyncWorker.deltaAt v v.version file (v.state.size.getD 0) i).state.size.getD 0
      = offsetAt file (v.state.size.getD 0) i := by
    show (IdListSyncWorker.deltaState v v.version file (v.state.size.getD 0) i).size.getD 0 = _
    unfold IdListSyncWorker.deltaState
    split
    · rename_i hi
      rw [hi, offsetAt_zero]
    · rfl
  rw [hsize]
  refine ⟨hb.offsetAt i, ?_⟩
  have hset : (IdListSyncWorker.deltaAt v v.version file (v.state.size.getD 0) i).fwd v.version =
      IdListSyncWorker.fwdAt v v.version file (v.state.size.getD 0) i := by
    simp [IdListSyncWorker.deltaAt]
  rw [hset, changes_offsetAt hb, replay_append, ← hfwd]
  rfl

/-- A completed delta of a synced list. -/
theorem synced_delta (hrev : w.config.enableReverseIndex = true)
    (hplan : w.resolve db id = .ok (some (.delta, md))) (hfile : origin md.url = file md.fileId)
    (h : Synced file (db.view id)) :
    Wp (listRedis origin id)
      (w.runPlanned id (ListSyncState.fromHashFields (db.state id)) .delta md)
      (fun _ v' => Synced file v') (fun _ => True) (db.view id) := by
  have hready := w.resolve_delta hplan
  have hver : (db.view id).version ≠ "" := hready.version
  have hfileId : md.fileId = (db.view id).state.fileId.getD "" := hready.fileId
  have htag : (db.view id).tag = (db.view id).fwd (db.version id) := by
    have hindex := h.settled.index
    unfold ListView.committed at hindex
    rw [if_neg hver] at hindex
    exact hindex
  refine (w.wp_runDelta hrev htag).mono ?_ fun _ h => h
  rintro _ v' ⟨_, _, rfl⟩
  obtain ⟨hb, hfwd⟩ := h.content hver
  rw [← hfileId, ← hfile] at hb hfwd
  refine ⟨IdListSyncWorker.settled_deltaAt h.settled hver _ _ _,
    IdListSyncWorker.tagged_deltaAt h.tagged _ _ _ _, fun _ => ?_⟩
  have hcontent := content_deltaAt hb hfwd
    (linesFrom (origin md.url) ((db.state id).size.getD 0)).length
  obtain ⟨size, card, hstate⟩ := IdListSyncWorker.deltaAt_state (db.view id) (db.version id)
    (origin md.url) ((db.state id).size.getD 0)
    (linesFrom (origin md.url) ((db.state id).size.getD 0)).length
  have hid := congrArg StateHash.fileId hstate
  have hversion := congrArg StateHash.version hstate
  unfold ListView.version
  rw [hid, hversion]
  have hsame : (db.view id).state.fileId.getD "" = md.fileId := hfileId.symm
  show Boundary (file ((db.view id).state.fileId.getD "")) _ ∧ _ =
    replay (changes ((file ((db.view id).state.fileId.getD "")).take _))
  rw [hsame, ← hfile]
  exact hcontent

/-- A task of a synced list that completes leaves it synced. -/
theorem synced_runClaimed (hok : db.Ok) (hrev : w.config.enableReverseIndex = true)
    (hserves : ∀ action md, w.resolve db id = .ok (some (action, md)) →
      origin md.url = file md.fileId)
    (h : Synced file (db.view id)) {a : IdListSyncWorker.WorkerRunOutcome}
    (he : Exec (redis origin) (w.runClaimed id) db db' (.ok a)) : Synced file (db'.view id) := by
  have hwp : Wp (redis origin) (w.runClaimed id) (fun _ t => Synced file (t.view id))
      (fun _ => True) db := by
    refine w.wp_runClaimed trivial (fun _ t ht => ⟨trivial, ?_⟩) fun action md hplan => ?_
    · rw [IdListSyncWorker.Persisted.view ht]
      exact h
    · cases action with
      | fullReload => exact wp_of_view (synced_reload hrev hplan (hserves _ _ hplan) h)
      | delta => exact wp_of_view (synced_delta hrev hplan (hserves _ _ hplan) h)
      | remove =>
        intro t o he'
        refine ⟨fun a ha => ?_, fun _ => trivial⟩
        subst ha
        obtain ⟨hsettled, hstate⟩ := w.settled_runRemove hok he'
        have hempty : (t.view id).version = "" := by
          show (t.state id).version.getD "" = ""
          rw [hstate]
          rfl
        exact ⟨hsettled, fun hver => absurd hempty hver, fun hver => absurd hempty hver⟩
  exact hwp.ok he

/-! ## Histories -/

/-- The invariant of a history. -/
def AllSynced (world : World) : Prop :=
  world.db.Ok ∧ ∀ id, Synced (world.files id) (world.db.view id)

theorem allSynced_empty (files : Files) : AllSynced ⟨{}, files⟩ := by
  refine ⟨empty_ok, fun id => ⟨IdListSyncWorker.settled_of_erased empty_ok rfl rfl, ?_, ?_⟩⟩
  · exact fun h => absurd rfl h
  · exact fun h => absurd rfl h

theorem allSynced_step {world world' : World} (h : AllSynced world)
    (hstep : HistoryStep world world') : AllSynced world' := by
  obtain ⟨hok, hsynced⟩ := h
  cases hstep with
  | grow db hgrow => exact ⟨hok, fun id => (hsynced id).grow (hgrow id)⟩
  | task db files id fields => exact ⟨hok.congr rfl rfl, hsynced⟩
  | execution w origin id a hrev hserves he =>
    have htidy := w.runClaimed_tidy hok he
    refine ⟨htidy.1, fun j => ?_⟩
    by_cases hj : j = id
    · subst hj
      exact synced_runClaimed hok hrev hserves (hsynced j) he
    · obtain ⟨hstate, hfwd, htag⟩ := htidy.other hok hj
      exact (hsynced j).congr hstate hfwd htag

theorem history_synced {files : Files} {world : World}
    (h : Relation.ReflTransGen HistoryStep ⟨{}, files⟩ world) : AllSynced world := by
  induction h with
  | refl => exact allSynced_empty files
  | tail _ hstep ih => exact allSynced_step ih hstep

/-! ## The readers -/

/-- A name is resolved for an id exactly if the id is in the index of the
list of that name. -/
theorem mem_resolved (hok : db.Ok) (skh lookupId list : String) :
    list ∈ ((db.member (skh, lookupId)).biUnion fun token =>
      ((db.dict skh).snapshot token).toFinset) ↔ lookupId ∈ db.tag ⟨skh, list⟩ := by
  simp only [Finset.mem_biUnion, Option.mem_toFinset, Option.mem_def, Dict.snapshot]
  constructor
  · rintro ⟨t, ht, hname⟩
    exact ⟨t, (hok skh).token_of_name t list hname, ht⟩
  · rintro ⟨t, htoken, ht⟩
    exact ⟨t, ht, (hok skh).name_of_token list t htoken⟩

theorem isForwardMember_iff (f : RedisIdListMembershipFetcher) (list lookupId : String)
    (h : Settled (db.view ⟨f.skh, list⟩)) :
    f.isForwardMember db list lookupId = true ↔ lookupId ∈ db.committed ⟨f.skh, list⟩ := by
  have hload : (db.state ⟨f.skh, list⟩).loadingVersion = none := h.loadingVersion
  unfold RedisIdListMembershipFetcher.isForwardMember RedisIdListMembershipFetcher.readVersion
    Db.committed Db.version
  cases hver : (db.state ⟨f.skh, list⟩).version with
  | none => simp [hload]
  | some ver =>
    by_cases hempty : ver = ""
    · simp [Option.filter, hload, hempty]
    · simp [Option.filter, hempty]

/-- Where every list is settled, both readers give the same names. -/
theorem fetch_eq_fetchForward (hok : db.Ok) (hsettled : ∀ id, Settled (db.view id))
    (f : RedisIdListMembershipFetcher) (hrev : f.enableReverseIndex = true)
    (lookupIds : List String) (visible : Finset String) :
    (f.fetch db (db.dict f.skh).snapshot lookupIds).restrict visible =
      f.fetchForward db (dedupeLookupIds lookupIds) visible := by
  have hnames : ∀ lookupId, ((db.member (f.skh, lookupId)).biUnion fun token =>
      ((db.dict f.skh).snapshot token).toFinset) ∩ visible =
      visible.filter fun list => f.isForwardMember db list lookupId = true := by
    intro lookupId
    ext list
    rw [Finset.mem_inter, Finset.mem_filter, mem_resolved hok, and_comm,
      isForwardMember_iff f list lookupId (hsettled _), ← view_tag hok, (hsettled _).index]
    rfl
  unfold RedisIdListMembershipFetcher.fetch RedisIdListMembershipFetcher.fetchForward
    ResolvedMemberships.restrict
  generalize dedupeLookupIds lookupIds = ids
  by_cases hids : ids.isEmpty = true
  · have hnil : ids = [] := List.isEmpty_iff.mp hids
    simp [hnil, emptyMemberships]
  · have hids : ids.isEmpty = false := by simpa using hids
    simp only [hids, hrev, Bool.not_true, Bool.false_eq_true, if_false, List.map_map, Bool.false_or,
      decide_eq_true_iff]
    split
    · rename_i hvisible
      subst hvisible
      simp [emptyMemberships]
    · refine List.map_congr_left fun lookupId _ => ?_
      exact congrArg (Prod.mk lookupId) (hnames lookupId)

/-- **Both indexes and both readers agree with the files** after every
history of completed tasks. -/
theorem history_membership {files : Files} {world : World}
    (hrun : Relation.ReflTransGen HistoryStep ⟨{}, files⟩ world) :
    (∀ id, world.db.version id ≠ "" → ∀ m,
      (m ∈ world.db.tag id ↔ m ∈ world.db.committed id) ∧
      (m ∈ world.db.committed id ↔
        lastSign m (changes ((world.files id ((world.db.state id).fileId.getD "")).take
          ((world.db.state id).size.getD 0))) = some true)) ∧
    ∀ (f : RedisIdListMembershipFetcher), f.enableReverseIndex = true →
      ∀ (lookupIds : List String) (visible : Finset String),
        (f.fetch world.db (world.db.dict f.skh).snapshot lookupIds).restrict visible =
          f.fetchForward world.db (dedupeLookupIds lookupIds) visible := by
  obtain ⟨hok, hsynced⟩ := history_synced hrun
  refine ⟨fun id hver m => ⟨?_, ?_⟩, fun f hrev lookupIds visible =>
    fetch_eq_fetchForward hok (fun id => (hsynced id).settled) f hrev lookupIds visible⟩
  · rw [← view_tag hok id, (hsynced id).settled.index]
    rfl
  · obtain ⟨_, hfwd⟩ := (hsynced id).content hver
    have hcommitted : world.db.committed id = (world.db.view id).fwd (world.db.view id).version :=
      if_neg hver
    rw [hcommitted, hfwd]
    exact mem_replay_iff m _

/-! A history of one list: it is loaded from a file with the line `+a`; the
file grows by `+b`, and a delta reads the line; the list rotates to a file
with the line `+c`, is removed, and is loaded from that file again. -/

def historyFiles (grown : Bool) : Files := fun _ fileId =>
  if fileId = "F" then if grown then [43, 97, 10, 43, 98, 10] else [43, 97, 10] else [43, 99, 10]

theorem historyFiles_grows : (historyFiles false).Grows (historyFiles true) := by
  intro id fileId
  unfold historyFiles
  split
  · exact ⟨[43, 98, 10], rfl⟩
  · exact List.prefix_rfl

/-- The URLs, once the first file has grown. -/
def historyOrigin (url : String) : List UInt8 :=
  if url = "u" then [43, 97, 10, 43, 98, 10] else [43, 99, 10]

/-- The contents with the task written. -/
def withTask (task : TaskMetadata) (db : Db) : Db :=
  db.setTaskMeta smallList
    ⟨some task.op, some task.url, some task.fileId, some task.creationTime, some task.size⟩

/-- The contents after the task. -/
def afterTask (task : TaskMetadata) (script : List Answer) (db : Db) : Db :=
  (scripted historyOrigin).after 100 ((smallWorker true).runClaimed smallList) (withTask task db)
    script

/-- A task whose plan is known is served the file it names. -/
theorem serves_of_resolve {origin : String → List UInt8} {files : Files}
    {action : IdListSyncWorker.WorkerAction} {md : TaskMetadata}
    (hplan : w.resolve db id = .ok (some (action, md))) (hserves : origin md.url = files id md.fileId) :
    ∀ action md, w.resolve db id = .ok (some (action, md)) → origin md.url = files id md.fileId := by
  intro action' md' hplan'
  have hsame := hplan.symm.trans hplan'
  simp only [Except.ok.injEq, Option.some.injEq, Prod.mk.injEq] at hsame
  rw [← hsame.2]
  exact hserves

/-- A task of the history, from the run of its script. -/
theorem history_task {task : TaskMetadata} {script : List Answer} {db : Db}
    (action : IdListSyncWorker.WorkerAction)
    (hrun : ((scripted historyOrigin).run 100 ((smallWorker true).runClaimed smallList)
      (withTask task db) script).map Prod.snd = some (.ok (.completed action)))
    (hplan : (smallWorker true).resolve (withTask task db) smallList = .ok (some (action, task)))
    (hserves : historyOrigin task.url = historyFiles true smallList task.fileId) :
    Relation.ReflTransGen HistoryStep ⟨db, historyFiles true⟩
      ⟨afterTask task script db, historyFiles true⟩ :=
  .tail (.single (.task _ _ _ _)) (.execution _ _ _ _ rfl (serves_of_resolve hplan hserves)
    ((scripted historyOrigin).after_sound hrun))

def grownList : Db := afterTask ⟨.load, "F", 1, "u", 6⟩ [.body ⟨[[43, 98, 10]], none⟩] smallLoaded

def rotatedList : Db :=
  afterTask ⟨.load, "G", 2, "g", 3⟩
    [.body ⟨[[43, 99, 10]], none⟩, .pages [["a", "b"]], .pages [["c"]], .order ["b", "a"]] grownList

def removedList : Db := afterTask ⟨.remove, "G", 2, "g", 3⟩ [.pages [["c"]]] rotatedList

def readdedList : Db :=
  afterTask ⟨.load, "G", 2, "g", 3⟩ [.body ⟨[[43, 99, 10]], none⟩, .pages [["c"]]] removedList

theorem reach_readded : Relation.ReflTransGen HistoryStep ⟨{}, historyFiles false⟩
    ⟨readdedList, historyFiles true⟩ := by
  have hfirst : (smallWorker true).resolve smallStart smallList =
      .ok (some (.fullReload, ⟨.load, "F", 1, "u", 3⟩)) := by decide +kernel
  have hloaded : Relation.ReflTransGen HistoryStep ⟨{}, historyFiles false⟩
      ⟨smallLoaded, historyFiles true⟩ :=
    .tail (.tail (.single (.task _ _ _ _))
      (.execution _ smallOrigin _ _ rfl (serves_of_resolve hfirst rfl) small_load))
      (.grow _ historyFiles_grows)
  have hgrown : Relation.ReflTransGen HistoryStep ⟨smallLoaded, historyFiles true⟩
      ⟨grownList, historyFiles true⟩ :=
    history_task .delta (by decide +kernel) (by decide +kernel) rfl
  have hrotated : Relation.ReflTransGen HistoryStep ⟨grownList, historyFiles true⟩
      ⟨rotatedList, historyFiles true⟩ :=
    history_task .fullReload (by decide +kernel) (by decide +kernel) rfl
  have hremoved : Relation.ReflTransGen HistoryStep ⟨rotatedList, historyFiles true⟩
      ⟨removedList, historyFiles true⟩ :=
    history_task .remove (by decide +kernel) (by decide +kernel) rfl
  have hreadded : Relation.ReflTransGen HistoryStep ⟨removedList, historyFiles true⟩
      ⟨readdedList, historyFiles true⟩ :=
    history_task .fullReload (by decide +kernel) (by decide +kernel) rfl
  exact (((hloaded.trans hgrown).trans hrotated).trans hremoved).trans hreadded

-- Evaluated by the kernel only.
attribute [irreducible] grownList rotatedList removedList readdedList

/-- The list has its second token, which `c` carries and `a` does not. -/
theorem history_membership_readded :
    (readdedList.dict "n").token "l" = some 2 ∧
    ("c" ∈ readdedList.tag smallList ∧ "a" ∉ readdedList.tag smallList) ∧
      (RedisIdListMembershipFetcher.fetch ⟨"n", true⟩ readdedList
          (readdedList.dict "n").snapshot ["a", "c"]).restrict {"l"} =
        RedisIdListMembershipFetcher.fetchForward ⟨"n", true⟩ readdedList
          (dedupeLookupIds ["a", "c"]) {"l"} := by
  obtain ⟨hindexes, hreaders⟩ := history_membership reach_readded
  have hver : readdedList.version smallList ≠ "" := by decide +kernel
  refine ⟨by decide +kernel, ⟨?_, ?_⟩, hreaders ⟨"n", true⟩ rfl ["a", "c"] {"l"}⟩
  · rw [(hindexes smallList hver "c").1, (hindexes smallList hver "c").2]
    decide +kernel
  · rw [(hindexes smallList hver "a").1, (hindexes smallList hver "a").2]
    decide +kernel

end ForwardProxy.IdList
