/-
ForwardProxy.IdList.PartitionCursorTheorems — a diff that is taken up with
another partition size.

The cursor of a diff is the number of a partition, and the number of
partitions is computed again by the worker that takes the diff up, from
the two cardinalities and its own `diff_partition_max_members`. A member
then counts as done when its NEW partition lies below the cursor, while
the work was done by the OLD numbering. `resumed_index_iff` says when that
is right: no member moves from above the cursor to below it, unless its
tag happens to be what the new set asks for.
-/
import ForwardProxy.IdList.ConvergenceTheorems
import ForwardProxy.IdList.ResumeTheorems

namespace ForwardProxy.IdList

open Effect

/-- A reload to `ver` was cut off while its diff stood at `cursor`, and
nothing makes the next reload rebuild the index. -/
structure DiffInterrupted (v : ListView) (ver : String) (cursor : Nat) : Prop where
  loadingVersion : v.state.loadingVersion = some ver
  diffPartition : v.state.diffPartition = some cursor
  fresh : ver ≠ v.version
  unflagged : ¬ v.Flagged

namespace IdListSyncWorker

variable (w : IdListSyncWorker) {origin : String → List UInt8} {id : ListId} {v : ListView}
  {md : TaskMetadata} {cursor : Nat}

/-- What a worker that takes up the diff of `v` at `cursor` leaves as the
reverse index. -/
def TakesUp (v : ListView) (ver : String) (cursor : Nat) (s : Set String) : Prop :=
  v.committed = ∅ ∧ s = v.fwd ver ∨ v.committed ≠ ∅ ∧
    TakenUp (w.partOf (w.partitionCount v.committed.card (v.fwd ver).card)) v.committed (v.fwd ver)
      v.tag cursor (w.partitionCount v.committed.card (v.fwd ver).card) s

/-- The reload takes the load up, and does not rebuild the index. -/
theorem resumes_of_interrupted (hrev : w.config.enableReverseIndex = true)
    (h : DiffInterrupted v md.versionTag cursor) (file : List UInt8) :
    (w.reloadRun v md file).reconcile = false ∧ (w.reloadRun v md file).resume = true ∧
      (w.reloadRun v md file).started = v := by
  have hview : (w.reloadRun v md file).v = v := if_pos hrev
  have hload : (w.reloadRun v md file).v.state.loadingVersion =
      some (w.reloadRun v md file).newVer := by
    rw [hview]
    exact h.loadingVersion
  have hpending : ¬ (w.reloadRun v md file).v.PendingLost := by
    rw [hview]
    exact fun hlost => h.unflagged (.inr (.inr (.inr hlost)))
  have hresume : (w.reloadRun v md file).resume = true := ReloadRun.resume_iff.mpr ⟨hload, hpending⟩
  have hreconcile : (w.reloadRun v md file).reconcile = false := by
    have hflags : v.state.reverseIndexDisabled = false ∧ v.state.reconcileRequired = false := by
      constructor
      · by_contra hflag
        exact h.unflagged (.inl (by simpa using hflag))
      · by_contra hflag
        exact h.unflagged (.inr (.inl (by simpa using hflag)))
    have hold : (w.reloadRun v md file).oldMissing = false := by
      by_contra hlost
      have hlost := (w.reloadRun v md file).oldMissing_iff.mp (by simpa using hlost)
      rw [hview] at hlost
      exact h.unflagged (.inr (.inr (.inl hlost)))
    have hmissing : (w.reloadRun v md file).pendingMissing = false := by
      by_contra hlost
      exact hpending ((ReloadRun.pendingMissing_iff hload).mp (by simpa using hlost))
    have hmatching := (w.reloadRun v md file).resume_matching hresume
    unfold ReloadRun.reconcile
    rw [reloadRun_state, hold, hmissing, hmatching]
    simp [ListSyncState.fromHashFields, hflags.1, hflags.2]
  refine ⟨hreconcile, hresume, ?_⟩
  unfold ReloadRun.started
  rw [if_pos hresume, ReloadRun.marked_eq hreconcile, hview]
  rfl

/-- The reload from the cursor on. -/
theorem wp_publishInterrupted (hrev : w.config.enableReverseIndex = true)
    (h : DiffInterrupted v md.versionTag cursor)
    (hmem : v.tag ∈ Set.uIcc (v.committed : Set String) (v.fwd md.versionTag)) :
    Wp (listRedis origin id)
      (w.publishReload id v.sync md md.versionTag false v.tok
        (w.reloadRun v md (origin md.url)).start cursor)
      (fun _ v' => w.TakesUp v md.versionTag cursor v'.tag) (fun _ => True) v := by
  obtain ⟨hreconcile, hresume, hstarted⟩ := w.resumes_of_interrupted hrev h (origin md.url)
  have hview : (w.reloadRun v md (origin md.url)).v = v := if_pos hrev
  have hold : (w.reloadRun v md (origin md.url)).old = v.committed := by
    rw [ReloadRun.old_eq_committed (by rw [hview]; exact h.fresh), hview]
  have hloaded : (w.reloadRun v md (origin md.url)).Loaded
      (w.reloadRun v md (origin md.url)).start cursor v := by
    have hcursor : (w.reloadRun v md (origin md.url)).v.state.diffPartition = some cursor := by
      rw [hview]
      exact h.diffPartition
    have hu := ReloadRun.Loaded.resumed cursor hresume hcursor
    rwa [hstarted] at hu
  have hindex : Wp (listRedis origin id)
      (w.reindexReload id (w.reloadRun v md (origin md.url)).oldVer md.versionTag false v.tok cursor
        v.committed.card (v.fwd md.versionTag).card)
      (fun _ v' => w.TakesUp v md.versionTag cursor v'.tag) (fun _ => True) v := by
    refine Wp.ite (fun hne => absurd hne (by simp)) fun _ => ?_
    refine Wp.when (fun _ => ?_) (fun _ => trivial) fun hne => absurd hrev (by simp [hne])
    refine (w.wp_applyStreamedDiff_takenUp ?_ hmem).mono (fun _ _ h => h)
      fun _ h => h
    rw [← hold]
    exact hloaded.old.symm
  have hrun : Wp (listRedis origin id) _ _ _ _ :=
    ReloadRun.wp_publishReload_of (Q := fun _ v' => w.TakesUp v md.versionTag cursor v'.tag)
      (X := fun _ => True) hloaded trivial fun _ => by
      rw [hreconcile, hold, hview]
      refine Wp.seq hindex fun _ v' hv' => wp_renewNow ?_
      refine w.wp_commitReload_checked.mono (fun _ v'' hv'' => ?_) fun _ h => h
      rw [hv''.tag]
      exact hv'
  rw [reloadRun_state, hreconcile, hview] at hrun
  exact hrun

/-- **A diff that is taken up** leaves the members below the cursor as they
were. -/
theorem wp_resumeReload (hrev : w.config.enableReverseIndex = true)
    (h : DiffInterrupted v md.versionTag cursor)
    (hmem : v.tag ∈ Set.uIcc (v.committed : Set String) (v.fwd md.versionTag)) :
    Wp (listRedis origin id) (w.runPlanned id v.sync .fullReload md)
      (fun _ v' => w.TakesUp v md.versionTag cursor v'.tag) (fun _ => True) v := by
  obtain ⟨hreconcile, hresume, hstarted⟩ := w.resumes_of_interrupted hrev h (origin md.url)
  have hview : (w.reloadRun v md (origin md.url)).v = v := if_pos hrev
  refine w.wp_markForwardOnly trivial ?_
  have hmarked : w.marked v = v := hview
  rw [hmarked]
  refine Wp.seq (P := fun _ v' => w.TakesUp v md.versionTag cursor v'.tag) ?_ fun _ v' hv' =>
    .pure trivial hv'
  have hrepair : Wp (listRedis origin id) _ _ _ _ :=
    ReloadRun.wp_reconcileCommittedForward (R := w.reloadRun v md (origin md.url))
  rw [reloadRun_state, hview] at hrepair
  refine Wp.seq (hrepair.mono (fun _ _ h => h) fun _ _ => trivial) ?_
  intro repaired v' hv'
  rcases hv' with ⟨rfl, _, rfl⟩ | ⟨_, hrepairs, _⟩
  · have hstart : Wp (listRedis origin id) _ _ _ _ :=
      ReloadRun.wp_startReload (R := w.reloadRun v' md (origin md.url))
    rw [reloadRun_state, hview, hstarted, hreconcile, hresume] at hstart
    refine Wp.seq (hstart.mono (fun _ _ h => h) fun _ _ => trivial) ?_
    intro started v'' hv''
    obtain ⟨rfl, rfl⟩ := hv''
    refine wp_getOrAllocateToken ?_
    have hcursor : v''.sync.diffPartition = some cursor := h.diffPartition
    have hoffset : (w.reloadRun v'' md (origin md.url)).start = v''.sync.loadingSize.getD 0 := by
      unfold ReloadRun.start
      rw [hresume, reloadRun_state]
      rfl
    have hpublish : Wp (listRedis origin id) _ _ _ _ := w.wp_publishInterrupted hrev h hmem
    rw [hoffset] at hpublish
    simp only [if_true, hcursor]
    exact hpublish
  · have hnone := hrepairs.2.2.2.2.2.1
    rw [reloadRun_state] at hnone
    exact absurd (h.loadingVersion.symm.trans hnone) (by simp)

/-- The partition of a member in the diff of `id` to `ver`. -/
def diffPartOf (db : Db) (id : ListId) (ver m : String) : Nat :=
  w.partOf (w.partitionCount (db.committed id).card (db.fwd id ver).members.card) m

/-- A reload that was cut off leaves the index invariant of its own worker. -/
theorem good_of_reload {db db' : Db} {o : Outcome WorkerError WorkerRunOutcome}
    (hgood : Good w (db.view id)) (hplan : w.resolve db id = .ok (some (.fullReload, md)))
    (he : Exec (redis origin) (w.runClaimed id) db db' o) : Good w (db'.view id) := by
  have hwp : Wp (redis origin) (w.runClaimed id) (fun _ t => Good w (t.view id))
      (fun t => Good w (t.view id)) db := by
    refine w.wp_planned hplan (wp_of_view ?_)
    exact (w.wp_runReload_good hplan hgood).mono (fun _ _ h => h.1) fun _ h => h
  exact hwp.always (fun _ _ h => h) he

end IdListSyncWorker

/-! ## Two workers -/

/-- **When a diff may be taken up with another partition size.** The first
worker is cut off in the diff, at any point; the second one takes it up and
returns. -/
theorem resumed_index_iff {w₁ w₂ : IdListSyncWorker} {origin₁ origin₂ : String → List UInt8}
    {db db₁ db₂ : Db} {id : ListId} {md₁ md₂ : TaskMetadata} {cursor : Nat}
    {o : Outcome WorkerError IdListSyncWorker.WorkerRunOutcome}
    {a : IdListSyncWorker.WorkerRunOutcome} (hok : db.Ok) (hgood : Good w₁ (db.view id))
    (hplan₁ : w₁.resolve db id = .ok (some (.fullReload, md₁)))
    (hstopped : Exec (redis origin₁) (w₁.runClaimed id) db db₁ o)
    (hcut : DiffInterrupted (db₁.view id) md₂.versionTag cursor)
    (hrev : w₂.config.enableReverseIndex = true)
    (hplan₂ : w₂.resolve db₁ id = .ok (some (.fullReload, md₂)))
    (hresumed : Exec (redis origin₂) (w₂.runClaimed id) db₁ db₂ (.ok a)) :
    db₂.tag id = (db₁.fwd id md₂.versionTag).members ↔
      db₁.committed id = ∅ ∨ ∀ m, w₂.diffPartOf db₁ id md₂.versionTag m < cursor →
        cursor ≤ w₁.diffPartOf db₁ id md₂.versionTag m →
          (m ∈ db₁.tag id ↔ m ∈ (db₁.fwd id md₂.versionTag).members) := by
  have hok₁ := (w₁.runClaimed_tidy hok hstopped).1
  have hok₂ := (w₂.runClaimed_tidy hok₁ hresumed).1
  have hexact := (w₁.good_of_reload hgood hplan₁ hstopped).index.resolve_left hcut.unflagged
  have hdiff := hexact.diffing _ _ hcut.loadingVersion hcut.fresh hcut.diffPartition
  have htakes : w₂.TakesUp (db₁.view id) md₂.versionTag cursor (db₂.view id).tag := by
    have hwp : Wp (redis origin₂) (w₂.runClaimed id)
        (fun _ t => w₂.TakesUp (db₁.view id) md₂.versionTag cursor (t.view id).tag)
        (fun _ => True) db₁ :=
      w₂.wp_planned hplan₂ (wp_of_view (w₂.wp_resumeReload hrev hcut hdiff.mem))
    exact hwp.ok hresumed
  rw [← view_tag hok₁, ← view_tag hok₂]
  rcases htakes with ⟨hempty, heq⟩ | ⟨hne, htaken⟩
  · exact ⟨fun _ => .inl hempty, fun _ => heq⟩
  · have hall := w₂.partOf_lt (w₂.partitionCount_pos (db₁.view id).committed.card
      ((db₁.view id).fwd md₂.versionTag).card)
    refine (htaken.eq_new_iff hall).trans ?_
    constructor
    · intro hdone
      exact .inr fun m hm _ => hdone m hm
    · intro hcond m hm
      rcases hcond with hempty | hcond
      · exact absurd hempty hne
      · by_cases hpart : w₁.diffPartOf db₁ id md₂.versionTag m < cursor
        · exact hdiff.done m hpart
        · exact hcond m hm (Nat.not_lt.mp hpart)

/-! ## A cursor that is taken for another partition -/

def cursorWorker (n : Nat) (h : 0 < n) : IdListSyncWorker where
  config := ⟨true, 2, 10, n, Nat.two_pos, ten_pos, h⟩
  digest m := if m = "a" then 0 else 1
  fwdKey _ ver := ver

/-- The file of the old version has `a` and `b`, that of the new one `c`. -/
def cursorOrigin : String → List UInt8 := fun url =>
  if url = "u" then [43, 97, 10, 43, 98, 10] else [43, 99, 10]

def cursorStart : Db := Db.setTaskMeta {} smallList (loadMeta ⟨"F", 1, "u", 6⟩)

def cursorLoaded : Db :=
  (scripted cursorOrigin).after 100 ((cursorWorker 1 Nat.one_pos).runClaimed smallList) cursorStart
    [.body ⟨[[43, 97, 10, 43, 98, 10]], none⟩, .pages [["a", "b"]]]

def cursorTask : TaskMetadata := ⟨.load, "G", 2, "v", 3⟩

def cursorRotated : Db := cursorLoaded.setTaskMeta smallList (loadMeta cursorTask.asIdListMetadata)

/-- One of two partitions is done. -/
def cursorStopped : Db :=
  (scripted cursorOrigin).after 27 ((cursorWorker 1 Nat.one_pos).runClaimed smallList) cursorRotated
    [.body ⟨[[43, 99, 10]], none⟩, .pages [["a", "b"]], .pages [["c"]], .order ["a"]]

/-- Taken up with one partition: nothing is left to do. -/
def cursorResumed : Db :=
  (scripted cursorOrigin).after 100 ((cursorWorker 10 ten_pos).runClaimed smallList)
    cursorStopped [.pages [["a", "b"]]]

/-- Taken up with the same partitions. -/
def cursorContinued : Db :=
  (scripted cursorOrigin).after 100 ((cursorWorker 1 Nat.one_pos).runClaimed smallList)
    cursorStopped [.pages [["a", "b"]], .pages [["a", "b"]], .pages [["c"]], .order ["b"]]

theorem cursor_runs :
    Exec (redis cursorOrigin) ((cursorWorker 1 Nat.one_pos).runClaimed smallList) cursorStart
      cursorLoaded (.ok (.completed .fullReload)) ∧
    Exec (redis cursorOrigin) ((cursorWorker 1 Nat.one_pos).runClaimed smallList) cursorRotated
      cursorStopped .stopped ∧
    Exec (redis cursorOrigin) ((cursorWorker 10 ten_pos).runClaimed smallList) cursorStopped
      cursorResumed (.ok (.completed .fullReload)) :=
  ⟨(scripted cursorOrigin).after_sound (by decide +kernel),
    (scripted cursorOrigin).after_sound (by decide +kernel),
    (scripted cursorOrigin).after_sound (by decide +kernel)⟩

-- Evaluated by the kernel only.
attribute [irreducible] cursorResumed

/-- The list is loaded before it is rotated. -/
theorem cursorRotated_good :
    cursorRotated.Ok ∧ Good (cursorWorker 1 Nat.one_pos) (cursorRotated.view smallList) := by
  have hplan : (cursorWorker 1 Nat.one_pos).resolve cursorStart smallList =
      .ok (some (.fullReload, ⟨.load, "F", 1, "u", 6⟩)) := by decide +kernel
  have hok : cursorStart.Ok := empty_ok.congr rfl rfl
  have hidle : Idle (cursorStart.view smallList) :=
    (IdListSyncWorker.settled_of_erased hok rfl rfl).idle fun h => absurd rfl h
  have hloaded := ((cursorWorker 1 Nat.one_pos).runClaimed_tidy hok cursor_runs.1).1
  obtain ⟨hsettled, htagged, _⟩ :=
    settled_rotation hok rfl hplan hidle (fun _ hver => absurd rfl hver) cursor_runs.1
  -- Stated for any contents, so that the load is not computed again.
  have hqueued : ∀ (db : Db) (h : TaskMetaHash), db.Ok →
      Good (cursorWorker 1 Nat.one_pos) (db.view smallList) →
      (db.setTaskMeta smallList h).Ok ∧
        Good (cursorWorker 1 Nat.one_pos) ((db.setTaskMeta smallList h).view smallList) :=
    fun _ _ hok hgood => ⟨hok.congr rfl rfl, hgood⟩
  exact hqueued _ _ hloaded (hsettled.good _ htagged)

theorem cursorStopped_interrupted :
    DiffInterrupted (cursorStopped.view smallList) cursorTask.versionTag 1 := by
  refine ⟨by decide +kernel, by decide +kernel, by decide +kernel, ?_⟩
  intro hflagged
  rcases hflagged with h | h | ⟨_, _, h⟩ | ⟨n, hn, _, h⟩
  · exact absurd h (by decide +kernel)
  · exact absurd h (by decide +kernel)
  · have hthere : (cursorStopped.view smallList).fwd (cursorStopped.view smallList).version ≠ ∅ := by
      decide +kernel
    exact hthere h
  · have hver : n = cursorTask.versionTag := by
      have hload : (cursorStopped.view smallList).state.loadingVersion =
          some cursorTask.versionTag := by decide +kernel
      exact Option.some.inj (hn.symm.trans hload)
    have hthere : (cursorStopped.view smallList).fwd cursorTask.versionTag ≠ ∅ := by
      decide +kernel
    rw [hver] at h
    exact hthere h

/-- Taken up with another partition size, a diff can return with members
of the old file in the index. -/
theorem not_forall_resumed_index : ¬ ∀ (w₁ w₂ : IdListSyncWorker) (origin : String → List UInt8)
    (db db₁ db₂ : Db) (id : ListId) (md₁ md₂ : TaskMetadata) (cursor : Nat)
    (o : Outcome WorkerError IdListSyncWorker.WorkerRunOutcome)
    (a : IdListSyncWorker.WorkerRunOutcome),
    w₁.digest = w₂.digest → w₁.config.enableReverseIndex = true →
    w₂.config.enableReverseIndex = true → db.Ok → Good w₁ (db.view id) →
    w₁.resolve db id = .ok (some (.fullReload, md₁)) →
    Exec (redis origin) (w₁.runClaimed id) db db₁ o →
    DiffInterrupted (db₁.view id) md₂.versionTag cursor →
    w₂.resolve db₁ id = .ok (some (.fullReload, md₂)) →
    Exec (redis origin) (w₂.runClaimed id) db₁ db₂ (.ok a) →
      db₂.tag id = (db₁.fwd id md₂.versionTag).members := by
  intro hclaim
  have hindex := hclaim (cursorWorker 1 Nat.one_pos) (cursorWorker 10 ten_pos) cursorOrigin
    cursorRotated cursorStopped cursorResumed smallList cursorTask cursorTask 1 _ _ rfl rfl rfl
    cursorRotated_good.1 cursorRotated_good.2 (by decide +kernel) cursor_runs.2.1
    cursorStopped_interrupted (by decide +kernel) cursor_runs.2.2
  have hkept : "b" ∈ cursorResumed.tag smallList := ⟨1, by decide +kernel, by decide +kernel⟩
  rw [hindex] at hkept
  have hnew : "b" ∉ (cursorStopped.fwd smallList cursorTask.versionTag).members := by
    decide +kernel
  exact hnew hkept

/-- Taken up with the same partition size. -/
theorem resumed_index_same_size :
    cursorContinued.tag smallList =
      (cursorStopped.fwd smallList cursorTask.versionTag).members := by
  have hresumed : Exec (redis cursorOrigin) ((cursorWorker 1 Nat.one_pos).runClaimed smallList)
      cursorStopped cursorContinued (.ok (.completed .fullReload)) :=
    (scripted cursorOrigin).after_sound (by decide +kernel)
  have hplan₁ : (cursorWorker 1 Nat.one_pos).resolve cursorRotated smallList =
      .ok (some (.fullReload, cursorTask)) := by decide +kernel
  have hplan₂ : (cursorWorker 1 Nat.one_pos).resolve cursorStopped smallList =
      .ok (some (.fullReload, cursorTask)) := by decide +kernel
  have hiff := resumed_index_iff cursorRotated_good.1 cursorRotated_good.2 hplan₁ cursor_runs.2.1
    cursorStopped_interrupted rfl hplan₂ hresumed
  exact hiff.mpr (.inr fun m hlt hle => absurd hlt (Nat.not_lt.mpr hle))

end ForwardProxy.IdList
