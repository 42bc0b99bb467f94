/-
ForwardProxy.IdList.RegistryTheorems — what is indexed can be found for
removal.

The producer derives removals from the `__all` registry alone, so a list
with a token has to be in it. A full load registers the list before it
allocates the token. A Delta, and the repair of a skipped reverse index,
allocate without registering: they rely on the committed state they start
from. The only state that is committed and not registered is the one a
removal leaves that stops before its last command, the deletion of the
state hash. If that state counts members, its missing forward set leads to
a full load (`Unlisted`); if it counts none, a Delta may follow.
-/
import ForwardProxy.IdList.ReentryTheorems
import ForwardProxy.IdList.RollbackTheorems

namespace ForwardProxy.IdList

open Effect

variable {origin : String → List UInt8} {db db' : Db} {id : ListId} {md : TaskMetadata}
  {w : IdListSyncWorker}

/-- The list can be found for removal. -/
def Db.Registered (db : Db) (id : ListId) : Prop := id.list ∈ db.all id.skh

/-- The number of members the state of a list counts. -/
def StateHash.count (h : StateHash) : Nat := h.cardinality.getD (h.size.getD 0)

/-- A list that is committed by its state only. -/
structure Unlisted (db : Db) (id : ListId) : Prop where
  counted : 0 < (db.state id).count
  missing : (db.fwd id (db.version id)).members = ∅

/-- A list that is not registered: it has no token, and no state that could
get it one without a full load. -/
structure Loose (db : Db) (id : ListId) : Prop where
  token : (db.dict id.skh).token id.list = none
  committed : db.version id = "" ∨ Unlisted db id

/-- A list the producer knows of, or need not. -/
def Accounted (db : Db) (id : ListId) : Prop := db.Registered id ∨ Loose db id

theorem Loose.setState (h : Loose db id) {s : StateHash}
    (hver : s.version = (db.state id).version) (hcount : s.count = (db.state id).count) :
    Loose (db.setState id s) id := by
  have hstate : (db.setState id s).state id = s := by simp
  have hversion : (db.setState id s).version id = db.version id := by
    unfold Db.version
    rw [hstate, hver]
  refine ⟨h.token, ?_⟩
  rcases h.committed with hempty | ⟨hcounted, hmissing⟩
  · exact .inl (hversion.trans hempty)
  · right
    constructor
    · rw [hstate, hcount]
      exact hcounted
    · rw [hversion]
      exact hmissing

/-! ## Loads of a registered list -/

theorem registered_write {target : Option TaskMetadata} {tok : Option Nat} {wr : Write}
    (hwr : wr.OfTask id target tok) (h : db.Registered id) : (wr.apply db).Registered id := by
  cases wr with
  | saddAll i =>
    obtain rfl := hwr
    simp [Db.Registered, Write.apply]
  | sremAll i => exact hwr.elim
  | _ => exact h

theorem registered_follows {α : Type} {target : Option TaskMetadata} {tok : Option Nat} {p : Redis α}
    (hp : p.Follows (taskProtocol id target) (fun _ => True) tok) :
    Keeps (redis origin) (fun db => db.Registered id) p :=
  task_follows registered_write (fun h => h) hp

/-! ## Full loads of a list that is not -/

/-- The state a task was planned with, as far as a load looks at it. -/
structure Reads (state : ListSyncState) (db : Db) (id : ListId) : Prop where
  version : state.version = db.version id
  count : state.cardinality.getD state.size = (db.state id).count

namespace IdListSyncWorker

theorem wp_markForwardOnly_loose {state : ListSyncState} (h : Loose db id)
    (hstate : Reads state db id) :
    Wp (redis origin) (w.markForwardOnly id) (fun _ t => Loose t id ∧ Reads state t id)
      (fun t => Loose t id) db := by
  refine Wp.ite (fun _ => .pure h ⟨h, hstate⟩) fun _ => ?_
  refine Wp.cmdBind h fun _ t hstep => ?_
  obtain rfl : t = (Write.hsetDictDisabled id.skh).apply db := hstep
  have hmarked : Loose ((Write.hsetDictDisabled id.skh).apply db) id := by
    refine ⟨?_, h.committed.imp_right fun hu => ⟨hu.counted, hu.missing⟩⟩
    simpa [Write.apply] using h.token
  refine Wp.cmd hmarked fun _ t' hstep => ?_
  obtain rfl : t' = (Write.hsetState id [.reverseIndexDisabled]).apply _ := hstep
  have hset := hmarked.setState (s := ((((Write.hsetDictDisabled id.skh).apply db).state id).setAll
    [.reverseIndexDisabled])) rfl rfl
  refine ⟨hset, hset, ?_⟩
  refine ⟨hstate.version.trans ?_, hstate.count.trans ?_⟩
  · simp [Db.version, Write.apply, StateHash.setAll, StateHash.set]
  · simp [StateHash.count, Write.apply, StateHash.setAll, StateHash.set]

/-- The repair of a skipped index needs the committed set. -/
theorem wp_reconcile_loose {state : ListSyncState} (h : Loose db id) (hstate : Reads state db id) :
    Wp (redis origin) (w.reconcileCommittedForward id state md) (fun r t => r = false ∧ t = db)
      (fun t => Loose t id) db := by
  refine Wp.ite (fun _ => .pure h ⟨rfl, rfl⟩) fun hcond => ?_
  refine Wp.cmdBind h fun card t hstep => ?_
  obtain ⟨rfl, rfl⟩ := hstep
  refine Wp.ite (fun _ => .pure h ⟨rfl, rfl⟩) fun hcard => ?_
  exfalso
  have hcard := not_not.mp hcard
  have hversion : state.version ≠ "" := by
    intro hempty
    simp [hempty] at hcond
  rw [hstate.version] at hversion hcard
  rcases h.committed with hempty | hunlisted
  · exact hversion hempty
  · have hcounted := hunlisted.counted
    rw [hunlisted.missing, Finset.card_empty] at hcard
    rw [← hstate.count, hcard] at hcounted
    simp at hcounted

theorem wp_startReload_loose {state : ListSyncState} {newVer : String} (h : Loose db id) :
    Wp (redis origin) (w.startReload id state newVer) (fun _ t => t.Registered id)
      (fun t => Accounted t id) db := by
  have hread : ∀ expected ver, Wp (redis origin) (keyMissing expected id ver) (fun _ t => t = db)
      (fun t => Accounted t id) db := by
    intro expected ver
    refine Wp.ite (fun _ => ?_) fun _ => .pure (.inr h) rfl
    refine Wp.cmdBind (.inr h) fun _ t hstep => ?_
    obtain ⟨_, rfl⟩ := hstep
    exact .pure (.inr h) rfl
  refine Wp.seq (hread _ _) ?_
  rintro oldMissing t rfl
  refine Wp.seq (hread _ _) ?_
  rintro pendingMissing t rfl
  refine Wp.cmdBind (.inr h) fun _ t' hstep => ?_
  obtain rfl : t' = (Write.saddAll id).apply t := hstep
  have hregistered : ((Write.saddAll id).apply t).Registered id := by
    simp [Db.Registered, Write.apply]
  have hkeeps : ∀ {α : Type} {p : Redis α}, p.Issues (Cmd.OfTask id none none) →
      Keeps (redis origin) (fun db => db.Registered id) p :=
    fun hp => hp.keeps fun _ hc => task_keeps registered_write hc
  refine Wp.mono (hkeeps ?_ _ hregistered) (fun _ _ h => h) fun _ h => .inl h
  exact .bind (.when (.bind (write_issues rfl) fun _ => hset_issues rfl)) fun _ =>
    .bind (.when (.bind (write_issues rfl) fun _ =>
      .bind (hset_issues rfl) fun _ => write_issues rfl)) fun _ => .pure _

/-- A full load registers the list before it allocates a token. -/
theorem wp_applyFullReload_loose {state : ListSyncState} (h : Loose db id)
    (hstate : Reads state db id) :
    Wp (redis origin) (w.applyFullReload id state md) (fun _ t => Accounted t id)
      (fun t => Accounted t id) db := by
  refine Wp.seq ((wp_reconcile_loose h hstate).mono (fun _ _ h => h) fun _ h => .inr h) ?_
  rintro repaired t ⟨rfl, rfl⟩
  refine Wp.ite (fun h => absurd h (by simp)) fun _ => ?_
  refine Wp.seq (wp_startReload_loose h) ?_
  rintro ⟨reconcile, resume⟩ t' ht'
  have hkeeps : ∀ {α : Type} {p : Redis α},
      p.Follows (taskProtocol id (some md)) (fun _ => True) none →
      Keeps (redis origin) (fun db => db.Registered id) p := fun hp => registered_follows hp
  refine Wp.mono (hkeeps ?_ t' ht') (fun _ _ h => .inl h) fun _ h => .inl h
  refine follows_alloc fun token => ?_
  cases (if resume then state.diffPartition else none) with
  | some partition => exact w.publishReload_issues
  | none => exact .bind w.loadReload_issues fun _ => w.publishReload_issues

/-- A load, whatever it starts from. -/
theorem wp_runLoad_accounted {action : WorkerAction} (hne : action ≠ .remove)
    (hplan : w.resolve db id = .ok (some (action, md))) (h : Accounted db id) :
    Wp (redis origin) (w.runPlanned id (ListSyncState.fromHashFields (db.state id)) action md)
      (fun _ t => Accounted t id) (fun t => Accounted t id) db := by
  rcases h with hregistered | hloose
  · have hfollows : (w.runPlanned id (ListSyncState.fromHashFields (db.state id)) action md).Follows
        (taskProtocol id (action.commits md)) (fun _ => True) none := w.runPlanned_follows hne
    exact (registered_follows hfollows db hregistered).mono (fun _ _ h => .inl h) fun _ h => .inl h
  · have hreads : Reads (ListSyncState.fromHashFields (db.state id)) db id := ⟨rfl, rfl⟩
    refine Wp.seq ((wp_markForwardOnly_loose hloose hreads).mono (fun _ _ h => h)
      fun _ h => .inr h) ?_
    rintro _ t ⟨ht, hstate⟩
    cases action with
    | remove => exact absurd rfl hne
    | fullReload =>
      refine Wp.seq (wp_applyFullReload_loose ht hstate) ?_
      intro _ t' ht'
      exact .pure ht' ht'
    | delta =>
      -- A Delta has a committed set wherever its state counts members.
      exfalso
      have hready := w.resolve_delta hplan
      rcases hloose.committed with hempty | hunlisted
      · exact hready.version hempty
      · have hexists := hready.exists_of_card hunlisted.counted
        unfold Db.forwardExists at hexists
        simp [hunlisted.missing] at hexists

/-! ## Removals -/

/-- A removal that has taken the list out of the registry leaves no state,
or one that counts members. -/
def StopsCounted (db db' : Db) (id : ListId) : Prop :=
  db.Registered id → db'.Registered id ∨ db'.state id = {} ∨ 0 < (db'.state id).count

/-- The final pipeline of a removal of a list that is not registered. -/
theorem wp_removeCleanup_loose {state : ListSyncState} (h : Loose db id) :
    Wp (redis origin) (removeCleanup id state none) (fun _ t => Accounted t id)
      (fun t => Accounted t id) db := by
  have hkeeps : ∀ wr : Write, (∀ t : Db, Loose t id → Loose (wr.apply t) id) →
      Keeps (redis origin) (fun t => Loose t id) (write wr) := by
    intro wr hwr
    refine .cmd ?_
    rintro t _ t' ht rfl
    exact hwr t ht
  have hfwd : ∀ ver, Keeps (redis origin) (fun t => Loose t id) (write (.delFwd id ver)) := by
    intro ver
    refine hkeeps _ fun t ht => ⟨ht.token, ht.committed.imp_right fun hu => ⟨hu.counted, ?_⟩⟩
    have hversion : ((Write.delFwd id ver).apply t).version id = t.version id := rfl
    rw [hversion]
    simp only [Write.apply, Db.setFwd_fwd, Function.update_self, Function.update_apply]
    split
    · rfl
    · exact hu.missing
  have hcleanup : Keeps (redis origin) (fun t => Loose t id) (removeCleanup id state none) := by
    refine .bind (.forEach (fun ver => hfwd ver) _) fun _ => .bind (hfwd _) fun _ =>
      .bind (hkeeps _ fun t ht => ⟨ht.token, ht.committed.imp_right fun hu => ⟨hu.counted, hu.missing⟩⟩)
        fun _ => .bind (hkeeps _ fun t ht => ?_) fun _ =>
          .bind (hkeeps _ fun t ht =>
            ⟨ht.token, ht.committed.imp_right fun hu => ⟨hu.counted, hu.missing⟩⟩) fun _ =>
              hkeeps _ fun t ht => ?_
    · refine ⟨?_, ht.committed.imp_right fun hu => ⟨hu.counted, hu.missing⟩⟩
      simp [Write.apply, Dict.hdel]
    · refine ⟨ht.token, .inl ?_⟩
      simp [Db.version, Write.apply]
  exact (hcleanup db h).mono (fun _ _ h => .inr h) fun _ h => .inr h

/-- A list without a token has no fan-out. -/
theorem wp_clearIndex_loose {state : ListSyncState} (h : Loose db id) :
    Wp (redis origin) (w.clearIndex id state) (fun token t => token = none ∧ Loose t id)
      (fun t => Loose t id) db := by
  refine Wp.cmdBind h fun fields t hstep => ?_
  obtain ⟨_, rfl⟩ := hstep
  refine Wp.cmdBind h fun token t' hstep => ?_
  obtain ⟨rfl, rfl⟩ := hstep
  rw [h.token]
  refine Wp.ite (fun _ => .throw h) fun _ => ?_
  refine Wp.seq (P := fun _ t => t = t') (Wp.when (fun _ => .pure h rfl) (fun _ => h) fun _ => rfl) ?_
  rintro _ t rfl
  refine Wp.seq (P := fun _ t => Loose t id) (Wp.when (fun _ => ?_) (fun _ => h) fun _ => h) ?_
  · refine Wp.cmd h fun _ t' hstep => ?_
    obtain rfl : t' = (Write.hsetState id [.removalFanoutComplete]).apply t := hstep
    have hset := h.setState (s := (t.state id).setAll [.removalFanoutComplete]) rfl rfl
    exact ⟨hset, hset⟩
  · intro _ t' ht'
    exact .pure ht' ⟨rfl, ht'⟩

/-- A registered list whose state is the one the removal was planned with,
as far as its version. -/
def Removable (state : ListSyncState) (id : ListId) (db : Db) : Prop :=
  db.Registered id ∧ (db.version id = state.version ∨ db.version id = "")

/-- The final pipeline of a removal of a registered list: after SREM only
the deletion of the state is left. -/
theorem wp_removeCleanup_registered {start : Db} {state : ListSyncState} {token : Option Nat}
    (hstart : start.Registered id) (h : Removable state id db) :
    Wp (redis origin) (removeCleanup id state token) (fun _ t => Accounted t id)
      (fun t => StopsCounted start t id → Accounted t id) db := by
  have hexit : ∀ t, Removable state id t → StopsCounted start t id → Accounted t id :=
    fun _ ht _ => .inl ht.1
  have hpending : Keeps (redis origin) (Removable state id)
      (Prog.forEach (fun version => write (.delFwd id version)) state.loadingVersion.toList) := by
    refine .forEach (fun version => .cmd ?_) _
    rintro t _ t' ht rfl
    exact ht
  refine Wp.seq ((hpending db h).mono (fun _ _ h => h) hexit) ?_
  intro _ t₁ h₁
  refine Wp.cmdBind (hexit t₁ h₁) fun _ t₂ hstep => ?_
  have h₂ : Removable state id t₂ ∧ (t₂.fwd id state.version).members = ∅ := by
    obtain rfl : t₂ = (Write.delFwd id state.version).apply t₁ := hstep
    exact ⟨h₁, by simp [Write.apply]⟩
  refine Wp.cmdBind (hexit t₂ h₂.1) fun _ t₃ hstep => ?_
  have h₃ : Removable state id t₃ ∧ (t₃.fwd id state.version).members = ∅ := by
    obtain rfl : t₃ = (Write.delMeta id).apply t₂ := hstep
    exact h₂
  refine Wp.cmdBind (hexit t₃ h₃.1) fun _ t₄ hstep => ?_
  have h₄ : (Removable state id t₄ ∧ (t₄.fwd id state.version).members = ∅) ∧
      (t₄.dict id.skh).token id.list = none := by
    obtain rfl : t₄ = (Write.hdelDict id token).apply t₃ := hstep
    exact ⟨h₃, by simp [Write.apply, Dict.hdel]⟩
  refine Wp.cmdBind (hexit t₄ h₄.1.1) fun _ t₅ hstep => ?_
  obtain rfl : t₅ = (Write.sremAll id).apply t₄ := hstep
  -- Here the list is unregistered, and its state is still there.
  have hcut : StopsCounted start ((Write.sremAll id).apply t₄) id →
      Accounted ((Write.sremAll id).apply t₄) id := by
    intro hstops
    rcases hstops hstart with hregistered | hempty | hcounted
    · exact .inl hregistered
    · refine .inr ⟨h₄.2, .inl ?_⟩
      unfold Db.version
      rw [hempty]
      rfl
    · refine .inr ⟨h₄.2, ?_⟩
      rcases h₄.1.1.2 with hversion | hversion
      · right
        refine ⟨hcounted, ?_⟩
        show (t₄.fwd id (t₄.version id)).members = ∅
        rw [hversion]
        exact h₄.1.2
      · exact .inl hversion
  refine Wp.cmd hcut fun _ t₆ hstep => ?_
  obtain rfl : t₆ = (Write.delState id).apply ((Write.sremAll id).apply t₄) := hstep
  have hdone : Accounted ((Write.delState id).apply ((Write.sremAll id).apply t₄)) id := by
    refine .inr ⟨h₄.2, .inl ?_⟩
    simp [Db.version, Write.apply]
  exact ⟨fun _ => hdone, hdone⟩

theorem wp_runRemove_accounted (h : Accounted db id) :
    Wp (redis origin) (w.runPlanned id (ListSyncState.fromHashFields (db.state id)) .remove md)
      (fun _ t => Accounted t id) (fun t => StopsCounted db t id → Accounted t id) db := by
  have hreads : Reads (ListSyncState.fromHashFields (db.state id)) db id := ⟨rfl, rfl⟩
  rcases h with hregistered | hloose
  · -- The version is kept, or the state is gone.
    have hkeeps : ∀ {α : Type} {p : Redis α}, p.Issues (fun c => (∃ tok, c.OfTask id none tok) ∨
        c = .write (.hsetState id [.removalFanoutComplete])) →
        Keeps (redis origin) (Removable (ListSyncState.fromHashFields (db.state id)) id) p := by
      intro α p hp
      refine hp.keeps ?_
      rintro c hc a r b ⟨hreg, hver⟩ hstep
      rcases hc with ⟨tok, hc⟩ | rfl
      case inr =>
        obtain rfl : b = (Write.hsetState id [.removalFanoutComplete]).apply a := hstep
        refine ⟨hreg, ?_⟩
        have hversion : ((Write.hsetState id [.removalFanoutComplete]).apply a).version id =
            a.version id := by
          simp [Db.version, Write.apply, StateHash.setAll, StateHash.set]
        rw [hversion]
        exact hver
      refine ⟨task_keeps (I := fun db => db.Registered id) registered_write hc a r b hreg hstep, ?_⟩
      have hnames : Names id none (a.state id).file b :=
        task_keeps names_write hc a r b (.inl rfl) hstep
      rcases hnames with hfile | hfile | ⟨_, hnone, _⟩
      · have hversion : b.version id = a.version id := congrArg CommittedFile.version hfile
        rw [hversion]
        exact hver
      · exact .inr hfile
      · simp at hnone
    have hmark : (w.markForwardOnly id).Issues (Cmd.OfTask id none none) := w.markForwardOnly_issues
    refine Wp.seq ((hkeeps (hmark.mono fun _ hc => .inl ⟨none, hc⟩) db ⟨hregistered, .inl rfl⟩).mono
      (fun _ _ h => h) fun _ h _ => .inl h.1) ?_
    intro _ t ht
    refine Wp.seq (P := fun _ t => Accounted t id) ?_ fun _ t' ht' => .pure (fun _ => ht') ht'
    show Wp (redis origin) (w.applyRemove id _) _ _ t
    rw [applyRemove_eq]
    refine Wp.seq ((hkeeps (clearIndex_issues _) t ht).mono (fun _ _ h => h) fun _ h _ => .inl h.1) ?_
    intro token t' ht'
    exact wp_removeCleanup_registered hregistered ht'
  · refine Wp.seq ((wp_markForwardOnly_loose hloose hreads).mono (fun _ _ h => h)
      fun _ h _ => .inr h) ?_
    rintro _ t ⟨ht, _⟩
    refine Wp.seq (P := fun _ t => Accounted t id) ?_ fun _ t' ht' => .pure (fun _ => ht') ht'
    show Wp (redis origin) (w.applyRemove id _) _ _ t
    rw [applyRemove_eq]
    refine Wp.seq ((wp_clearIndex_loose ht).mono (fun _ _ h => h) fun _ h _ => .inr h) ?_
    rintro token t' ⟨rfl, ht'⟩
    exact (wp_removeCleanup_loose ht').mono (fun _ _ h => h) fun _ h _ => h

/-- One execution. -/
theorem wp_runClaimed_accounted (h : Accounted db id) :
    Wp (redis origin) (w.runClaimed id) (fun _ t => Accounted t id)
      (fun t => (∀ md, w.resolve db id = .ok (some (.remove, md)) → StopsCounted db t id) →
        Accounted t id) db := by
  refine w.wp_runClaimed (fun _ => h) ?_ ?_
  · intro _ t ht
    have hkeep : Accounted t id := by
      rcases ht with rfl | rfl
      · exact h
      · refine h.imp_right fun hloose => ⟨hloose.token, hloose.committed.imp_right fun hu => ?_⟩
        refine ⟨hu.counted, ?_⟩
        show (((Write.persistFwd id (db.version id)).apply db).fwd id (db.version id)).members = ∅
        simpa [Write.apply, FwdSet.persist] using hu.missing
    exact ⟨fun _ => hkeep, hkeep⟩
  · intro action md hplan
    by_cases haction : action = .remove
    · subst haction
      exact (wp_runRemove_accounted h).mono (fun _ _ h => h) fun _ h hstops => h (hstops md hplan)
    · exact (wp_runLoad_accounted haction hplan h).mono (fun _ _ h => h) fun _ h _ => h

end IdListSyncWorker

/-! ## Whole runs -/

/-- One step of a run: a producer tick, with whatever manifest, the expiry
of a task's metadata or of a forward set, or the execution of a task, which
may stop after any command. `P` is what is asked of an execution that comes
to a removal. -/
inductive RegistryStep (P : Db → Db → ListId → Prop) : Db → Db → Prop
  | tick {db db' : Db} (p : IdListSyncProducer) (origin : String → List UInt8)
      (o : Outcome WorkerError ProducerTickStats)
      (he : Exec (redis origin) p.produceLocked db db' o) : RegistryStep P db db'
  | expired (db : Db) (id : ListId) : RegistryStep P db (db.setTaskMeta id {})
  | fwdExpired (db : Db) (id : ListId) (ver : String) (httl : (db.fwd id ver).ttl = true) :
      RegistryStep P db (db.setFwd id ver {})
  | execution {db db' : Db} (w : IdListSyncWorker) (origin : String → List UInt8) (id : ListId)
      (o : Outcome WorkerError IdListSyncWorker.WorkerRunOutcome)
      (he : Exec (redis origin) (w.runClaimed id) db db' o)
      (hP : ∀ md, w.resolve db id = .ok (some (.remove, md)) → P db db' id) : RegistryStep P db db'

def AllAccounted (db : Db) : Prop := db.Ok ∧ ∀ id, Accounted db id

theorem Accounted.congr (h : Accounted db id) (hall : db'.Registered id ↔ db.Registered id)
    (htoken : (db'.dict id.skh).token id.list = (db.dict id.skh).token id.list)
    (hstate : db'.state id = db.state id)
    (hfwd : ∀ ver, (db.fwd id ver).members = ∅ → (db'.fwd id ver).members = ∅) :
    Accounted db' id := by
  rcases h with hregistered | hloose
  · exact .inl (hall.mpr hregistered)
  · have hversion : db'.version id = db.version id := by
      unfold Db.version
      rw [hstate]
    refine .inr ⟨htoken.trans hloose.token, ?_⟩
    rw [hversion]
    refine hloose.committed.imp_right fun hu => ⟨?_, ?_⟩
    · rw [hstate]
      exact hu.counted
    · rw [hversion]
      exact hfwd _ hu.missing

theorem allAccounted_step (h : AllAccounted db)
    (hstep : RegistryStep IdListSyncWorker.StopsCounted db db') : AllAccounted db' := by
  cases hstep with
  | tick p origin o he =>
    have hticked := p.ticked_produceLocked he
    refine ⟨hticked.ok h.1, fun id => (h.2 id).congr ?_ (congrFun (hticked.token id.skh) _) ?_ ?_⟩
    · unfold Db.Registered
      rw [hticked.all]
    · rw [hticked.state]
    · intro ver hver
      rw [hticked.fwd]
      exact hver
  | expired id => exact ⟨h.1.congr rfl rfl, fun j => (h.2 j).congr .rfl rfl rfl fun _ h => h⟩
  | fwdExpired id ver httl =>
    refine ⟨h.1.congr rfl rfl, fun j => (h.2 j).congr .rfl rfl rfl fun ver' hver' => ?_⟩
    simp only [Db.setFwd_fwd, Function.update_apply]
    split
    · rename_i hj
      subst hj
      simp only [Function.update_apply]
      split
      · rfl
      · exact hver'
    · exact hver'
  | execution w origin id o he hP =>
    have htidy := w.runClaimed_tidy h.1 he
    refine ⟨htidy.1, fun j => ?_⟩
    by_cases hj : j = id
    · subst hj
      have hwp : Wp (redis origin) (w.runClaimed j) _ _ db :=
        IdListSyncWorker.wp_runClaimed_accounted (h.2 j)
      exact hwp.always (fun _ _ h _ => h) he hP
    · refine (h.2 j).congr ?_ (htidy.2.token_other hj) (htidy.2.state j hj) ?_
      · exact htidy.2.all j.skh j.list fun hskh => list_ne_of_ne hj hskh
      · intro ver hver
        rw [htidy.2.fwd j hj]
        exact hver

theorem reach_allAccounted
    (hrun : Relation.ReflTransGen (RegistryStep IdListSyncWorker.StopsCounted) {} db) :
    AllAccounted db := by
  induction hrun with
  | refl => exact ⟨empty_ok, fun _ => .inr ⟨rfl, .inl rfl⟩⟩
  | tail _ hstep ih => exact allAccounted_step ih hstep

/-- **What is indexed can be found for removal**, along a run in which no
removal takes a list out of the registry and leaves a state that counts no
members: a list with a token is in the registry. -/
theorem registered_of_token
    (hrun : Relation.ReflTransGen (RegistryStep IdListSyncWorker.StopsCounted) {} db)
    (htoken : (db.dict id.skh).token id.list ≠ none) : id.list ∈ db.all id.skh := by
  rcases (reach_allAccounted hrun).2 id with hregistered | hloose
  · exact hregistered
  · exact absurd hloose.token htoken

/-! The list is loaded and leaves the manifest, and its removal stops before
its last command. Then the list comes back, to a worker in forward-only
mode. -/

def removalBeforeState : Db :=
  (scripted smallOrigin).after 15 ((smallWorker true).runClaimed smallList) tickedAbsent
    [.pages [["a"]]]

def tickedCounted : Db := tickOnce manifestF [] removalBeforeState

def loadedCounted : Db :=
  (scripted smallOrigin).after 100 ((smallWorker false).runClaimed smallList) tickedCounted
    [.body ⟨[[43, 97, 10]], none⟩]

theorem loaded_counted : Exec (redis smallOrigin) ((smallWorker false).runClaimed smallList)
    tickedCounted loadedCounted (.ok (.completed .fullReload)) :=
  (scripted smallOrigin).after_sound (by decide +kernel)

-- Evaluated by the kernel only.
attribute [irreducible] loadedCounted

theorem reach_removalBeforeState : Relation.ReflTransGen
    (RegistryStep IdListSyncWorker.StopsCounted) {} removalBeforeState := by
  obtain ⟨hfirst, hloaded, habsent, _⟩ := ticked_runs
  have hregistered : smallList.list ∈ tickedLoaded.all smallList.skh := by decide +kernel
  have hcounted : 0 < (removalBeforeState.state smallList).count := by decide +kernel
  have hstopped : Exec (redis smallOrigin) ((smallWorker true).runClaimed smallList) tickedAbsent
      removalBeforeState .stopped :=
    (scripted smallOrigin).after_sound (by decide +kernel)
  have hload : RegistryStep IdListSyncWorker.StopsCounted tickedLoad tickedLoaded :=
    .execution _ _ _ _ hloaded fun _ _ _ => .inl hregistered
  have hremoval : RegistryStep IdListSyncWorker.StopsCounted tickedAbsent removalBeforeState :=
    .execution _ _ _ _ hstopped fun _ _ _ => .inr (.inr hcounted)
  exact (((Relation.ReflTransGen.single (.tick _ _ _ hfirst)).tail hload).tail
    (.tick _ _ _ habsent)).tail hremoval

/-- The removal takes the list out of the registry and leaves a state that
counts the member, so the list is loaded and registered again. -/
theorem registered_of_token_load : smallList.list ∈ loadedCounted.all smallList.skh := by
  have hlisted : Exec (redis smallOrigin) (smallProducer manifestF).produceLocked
      removalBeforeState tickedCounted (.ok ⟨0, 0, 1, 0, 1⟩) :=
    tickOnce_exec (by decide +kernel)
  have hregistered : smallList.list ∈ loadedCounted.all smallList.skh := by decide +kernel
  have hload : RegistryStep IdListSyncWorker.StopsCounted tickedCounted loadedCounted :=
    .execution _ _ _ _ loaded_counted fun _ _ _ => .inl hregistered
  have htoken : (loadedCounted.dict smallList.skh).token smallList.list ≠ none := by
    decide +kernel
  exact registered_of_token ((reach_removalBeforeState.tail (.tick _ _ _ hlisted)).tail hload)
    htoken

/-! The list is loaded from a file without members, and leaves the
manifest; its removal stops before its last command. Then the list comes
back, with a file that has grown. -/

def blankF : IdListManifest := [("l", ⟨"F", 1, "u", 1⟩)]

def grownBlankF : IdListManifest := [("l", ⟨"F", 1, "u", 4⟩)]

def tickedBlank : Db := tickOnce blankF [] {}

def loadedBlank : Db :=
  (scripted fun _ => [10]).after 100 ((smallWorker true).runClaimed smallList) tickedBlank
    [.body ⟨[[10]], none⟩, .pages []]

def absentBlank : Db := tickOnce [] ["l"] loadedBlank

def removalBeforeLast : Db :=
  (scripted fun _ => [10]).after 11 ((smallWorker true).runClaimed smallList) absentBlank
    [.pages []]

def grownBlank : Db := tickOnce grownBlankF [] removalBeforeLast

def deltaBlank : Db :=
  (scripted fun _ => [10, 43, 97, 10]).after 100 ((smallWorker true).runClaimed smallList) grownBlank
    [.body ⟨[[43, 97, 10]], none⟩]

theorem reach_deltaBlank : Relation.ReflTransGen (RegistryStep fun _ _ _ => True) {} deltaBlank := by
  have hticked : Exec (redis smallOrigin) (smallProducer blankF).produceLocked {} tickedBlank
      (.ok ⟨1, 0, 1, 0, 1⟩) :=
    tickOnce_exec (by decide +kernel)
  have hloaded : Exec (redis fun _ => [10]) ((smallWorker true).runClaimed smallList) tickedBlank
      loadedBlank (.ok (.completed .fullReload)) :=
    (scripted fun _ => [10]).after_sound (by decide +kernel)
  have habsent : Exec (redis smallOrigin) (smallProducer []).produceLocked loadedBlank absentBlank
      (.ok ⟨0, 1, 1, 0, 1⟩) :=
    tickOnce_exec (by decide +kernel)
  have hstopped : Exec (redis fun _ => [10]) ((smallWorker true).runClaimed smallList) absentBlank
      removalBeforeLast .stopped :=
    (scripted fun _ => [10]).after_sound (by decide +kernel)
  have hgrown : Exec (redis smallOrigin) (smallProducer grownBlankF).produceLocked
      removalBeforeLast grownBlank (.ok ⟨0, 0, 1, 0, 1⟩) :=
    tickOnce_exec (by decide +kernel)
  have hdelta : Exec (redis fun _ => [10, 43, 97, 10]) ((smallWorker true).runClaimed smallList)
      grownBlank deltaBlank (.ok (.completed .delta)) :=
    (scripted fun _ => [10, 43, 97, 10]).after_sound (by decide +kernel)
  have hremoved : Relation.ReflTransGen (RegistryStep fun _ _ _ => True) {} removalBeforeLast :=
    .tail (.tail (.tail (.single (.tick _ _ _ hticked))
      (.execution _ _ _ _ hloaded fun _ _ => True.intro)) (.tick _ _ _ habsent))
      (.execution _ _ _ _ hstopped fun _ _ => True.intro)
  exact .tail (.tail hremoved (.tick _ _ _ hgrown))
    (.execution _ _ _ _ hdelta fun _ _ => True.intro)

theorem deltaBlank_unregistered : ∃ (db : Db) (id : ListId),
    Relation.ReflTransGen (RegistryStep fun _ _ _ => True) {} db ∧
    (db.dict id.skh).token id.list ≠ none ∧ id.list ∉ db.all id.skh :=
  ⟨deltaBlank, smallList, reach_deltaBlank, by decide +kernel, by decide +kernel⟩

/-- Without the condition a list with a token can be out of the registry. -/
theorem unregistered_token : ¬ ∀ (db : Db) (id : ListId),
    Relation.ReflTransGen (RegistryStep fun _ _ _ => True) {} db →
    (db.dict id.skh).token id.list ≠ none → id.list ∈ db.all id.skh := by
  intro hclaim
  obtain ⟨db, id, hrun, htoken, hout⟩ := deltaBlank_unregistered
  exact hout (hclaim db id hrun htoken)

end ForwardProxy.IdList
