/-
ForwardProxy.IdList.TtlTheorems — which forward sets carry a TTL.

A forward set is created with a TTL and loses it when its version is
committed; the set of the version before then gets one. `TtlInv` is what
holds of a list between two executions: the committed set has no TTL,
unless a load is pending, and every other set has one.

Two windows of the source break it, and the runs of the theorem stay out
of them:

* `commit_reload` publishes the version first and sends PERSIST and EXPIRE
  afterwards. A worker that stops in between leaves sets that no later
  tick or task repairs (`commitsThrough`);
* a load installs the TTL with its first batch. A set that the file
  empties is dropped by Redis together with its TTL, and the next addition
  creates it again, without (`createsBare`).

Removals are covered too: they leave no set but those with a TTL.
-/
import ForwardProxy.Effect.Interference
import ForwardProxy.IdList.PendingTtlTheorems
import ForwardProxy.IdList.ReentryTheorems
import ForwardProxy.IdList.SchemaTheorems

namespace ForwardProxy.IdList

open Effect

variable {origin : String → List UInt8} {db db' : Db} {id : ListId} {ver newVer : String}
  {v l : Option String} {α : Type}

/-! ## The two windows -/

/-- A batch that creates a forward set and installs no TTL on it. -/
def createsBare (db : Db) : List Write → Bool
  | [] => false
  | .saddFwd id ver m :: ws =>
    ((db.fwd id ver).members = ∅ && !ws.contains (.expireFwd id ver)) ||
      createsBare (Write.apply db (.saddFwd id ver m)) ws
  | w :: ws => createsBare (w.apply db) ws

/-- The guard of a run whose loads create no set without TTL. -/
def expiring (db : Db) : Cmd → Bool
  | .multi ws => !createsBare db ws
  | _ => true

/-- A worker that has published a version goes on until the new set is
persistent and the set of the `old` version expires. -/
def commitsThrough (old : ListId → String) : List Cmd → Bool
  | [] => true
  | .write (.hsetState id (.version ver :: _)) :: tail =>
    (tail.contains (.write (.persistFwd id ver)) &&
      (old id = "" || old id = ver || tail.contains (.write (.expireFwd id (old id))))) &&
      commitsThrough old tail
  | _ :: tail => commitsThrough old tail

theorem commitsThrough_tail {old : ListId → String} {c : Cmd} {tail : List Cmd}
    (h : commitsThrough old (c :: tail) = true) : commitsThrough old tail = true := by
  rw [commitsThrough.eq_def] at h
  split at h
  · rename_i heq
    simp at heq
  · rename_i heq
    obtain ⟨rfl, rfl⟩ := List.cons.inj heq
    simp only [Bool.and_eq_true] at h
    exact h.2
  · rename_i heq
    obtain ⟨rfl, rfl⟩ := List.cons.inj heq
    exact h

theorem commitsThrough_commit {old : ListId → String} {fields : List StateField}
    {before tail : List Cmd}
    (h : commitsThrough old (before ++ .write (.hsetState id (.version ver :: fields)) :: tail) =
      true) :
    .write (.persistFwd id ver) ∈ tail ∧
      (old id ≠ "" → old id ≠ ver → .write (.expireFwd id (old id)) ∈ tail) := by
  induction before with
  | nil =>
    simp only [List.nil_append, commitsThrough, Bool.and_eq_true, Bool.or_eq_true,
      decide_eq_true_eq, List.contains_iff_mem] at h
    refine ⟨h.1.1, fun hne hne' => ?_⟩
    rcases h.1.2 with (heq | heq) | hmem
    · exact absurd heq hne
    · exact absurd heq hne'
    · exact hmem
  | cons c before ih => exact ih (commitsThrough_tail h)

/-! ## The invariant -/

structure TtlInv (db : Db) (id : ListId) : Prop where
  named : (db.state id).version ≠ some ""
  committed : (db.state id).loadingVersion = none → ∀ ver, (db.state id).version = some ver →
    (db.fwd id ver).ttl = false
  other : ∀ ver, (db.state id).version ≠ some ver → (db.fwd id ver).members ≠ ∅ →
    (db.fwd id ver).ttl = true

/-- The invariant, at a known committed and loading version. -/
structure Sets (id : ListId) (v l : Option String) (db : Db) : Prop where
  inv : TtlInv db id
  version : (db.state id).version = v
  loading : (db.state id).loadingVersion = l

theorem Sets.congr (h : Sets id v l db) (hfwd : db'.fwd id = db.fwd id)
    (hversion : (db'.state id).version = (db.state id).version)
    (hloading : (db'.state id).loadingVersion = (db.state id).loadingVersion) :
    Sets id v l db' := by
  refine ⟨⟨?_, ?_, ?_⟩, hversion.trans h.version, hloading.trans h.loading⟩
  · rw [hversion]
    exact h.inv.named
  · rw [hversion, hloading, hfwd]
    exact h.inv.committed
  · rw [hversion, hfwd]
    exact h.inv.other

theorem TtlInv.congr (h : TtlInv db id) (hstate : db'.state id = db.state id)
    (hfwd : db'.fwd id = db.fwd id) : TtlInv db' id := by
  have hsets : Sets id (db.state id).version (db.state id).loadingVersion db := ⟨h, rfl, rfl⟩
  exact (hsets.congr hfwd (by rw [hstate]) (by rw [hstate])).inv

/-- A set replaced by one with the right TTL. -/
theorem Sets.setFwd {f : FwdSet} (h : Sets id v l db)
    (hcommitted : l = none → v = some ver → f.ttl = false)
    (hother : v ≠ some ver → f.members ≠ ∅ → f.ttl = true) : Sets id v l (db.setFwd id ver f) := by
  refine ⟨⟨h.inv.named, ?_, ?_⟩, h.version, h.loading⟩
  · intro hloading ver' hversion
    simp only [Db.setFwd_fwd, Db.setFwd_state, Function.update_self] at *
    by_cases hver : ver' = ver
    · subst hver
      rw [Function.update_self]
      exact hcommitted (h.loading.symm.trans hloading) (h.version.symm.trans hversion)
    · rw [Function.update_of_ne hver]
      exact h.inv.committed hloading ver' hversion
  · intro ver' hversion
    simp only [Db.setFwd_fwd, Db.setFwd_state, Function.update_self] at *
    by_cases hver : ver' = ver
    · subst hver
      rw [Function.update_self]
      exact hother (h.version ▸ hversion)
    · rw [Function.update_of_ne hver]
      exact h.inv.other ver' hversion

theorem Sets.delFwd (h : Sets id v l db) : Sets id v l (db.setFwd id ver {}) :=
  h.setFwd (fun _ _ => rfl) (fun _ hmembers => absurd rfl hmembers)

/-- What a run leaves, if it does not stop inside a commit. -/
def Leaves (old : ListId → String) (id : ListId) (t : Db × List Cmd) : Prop :=
  commitsThrough old t.2 = true → TtlInv t.1 id

/-! ## Commands beside the sets -/

/-- A write of the state that names no version. -/
def StateField.naming : StateField → Bool
  | .version _ | .loadingVersion _ => true
  | _ => false

/-- Writes that leave the forward sets, and which version is committed or
loading, alone. -/
def Write.Quiet : Write → Prop
  | .saddFwd _ _ _ | .sremFwd _ _ _ | .delFwd _ _ | .expireFwd _ _ | .persistFwd _ _ => False
  | .hsetState _ fs => ∀ f ∈ fs, f.naming = false
  | .hdelState _ fs => .loadingVersion ∉ fs
  | .delState _ => False
  | _ => True

def Cmd.Quiet : Cmd → Prop
  | .write w => w.Quiet
  | .multi _ => False
  | _ => True

theorem version_set {f : StateField} (hf : f.naming = false) (h : StateHash) :
    (h.set f).version = h.version ∧ (h.set f).loadingVersion = h.loadingVersion := by
  cases f <;> first | exact ⟨rfl, rfl⟩ | simp [StateField.naming] at hf

theorem version_setAll {fs : List StateField} (hfs : ∀ f ∈ fs, f.naming = false) (h : StateHash) :
    (h.setAll fs).version = h.version ∧ (h.setAll fs).loadingVersion = h.loadingVersion := by
  induction fs generalizing h with
  | nil => exact ⟨rfl, rfl⟩
  | cons f fs ih =>
    have hset := version_set (hfs f (by simp)) h
    obtain ⟨hversion, hloading⟩ := ih (fun f' hf' => hfs f' (by simp [hf'])) (h.set f)
    exact ⟨hversion.trans hset.1, hloading.trans hset.2⟩

theorem version_delAll {fs : List StateFieldName} (hfs : .loadingVersion ∉ fs) (h : StateHash) :
    (h.delAll fs).version = h.version ∧ (h.delAll fs).loadingVersion = h.loadingVersion := by
  induction fs generalizing h with
  | nil => exact ⟨rfl, rfl⟩
  | cons f fs ih =>
    simp only [List.mem_cons, not_or] at hfs
    have hdel : (h.del f).version = h.version ∧ (h.del f).loadingVersion = h.loadingVersion := by
      cases f with
      | loadingVersion => exact absurd rfl hfs.1
      | _ => exact ⟨rfl, rfl⟩
    obtain ⟨hversion, hloading⟩ := ih hfs.2 (h.del f)
    exact ⟨hversion.trans hdel.1, hloading.trans hdel.2⟩

theorem Sets.setState {h' : StateHash} {i : ListId} (h : Sets id v l db)
    (hversion : h'.version = (db.state i).version)
    (hloading : h'.loadingVersion = (db.state i).loadingVersion) :
    Sets id v l (db.setState i h') := by
  refine h.congr rfl ?_ ?_
  · simp only [Db.setState_state, Function.update_apply]
    split
    · rename_i hi
      rw [hversion, hi]
    · rfl
  · simp only [Db.setState_state, Function.update_apply]
    split
    · rename_i hi
      rw [hloading, hi]
    · rfl

theorem Sets.write {w : Write} (hw : w.Quiet) (h : Sets id v l db) : Sets id v l (w.apply db) := by
  cases w with
  | hsetState i fs =>
    exact h.setState (version_setAll hw _).1 (version_setAll hw _).2
  | hdelState i fs =>
    exact h.setState (version_delAll hw _).1 (version_delAll hw _).2
  | saddFwd i ver m => exact hw.elim
  | sremFwd i ver m => exact hw.elim
  | delFwd i ver => exact hw.elim
  | expireFwd i ver => exact hw.elim
  | persistFwd i ver => exact hw.elim
  | delState i => exact hw.elim
  | _ => exact h.congr rfl rfl rfl

/-- Redis, in the runs whose loads create no set without TTL. -/
abbrev expiringRedis (origin : String → List UInt8) : Handler Cmd Cmd.Reply Db :=
  (redis origin).under expiring

theorem Sets.step {c : Cmd} (hc : c.Quiet) (db : Db) (r : c.Reply) (db' : Db) (h : Sets id v l db)
    (hstep : (expiringRedis origin).step db c r db') : Sets id v l db' := by
  rcases redis_step_cases hstep.2 with
    ⟨w, rfl, rfl⟩ | ⟨ws, rfl, _⟩ | ⟨i, _, rfl⟩ | ⟨queue, _, rfl⟩ | rfl
  · exact h.write hc
  · exact hc.elim
  · exact h.congr rfl rfl rfl
  · exact h.congr rfl rfl rfl
  · exact h

theorem keeps_quiet {p : Redis α} (hp : p.Issues Cmd.Quiet) :
    Keeps (expiringRedis origin) (Sets id v l) p :=
  hp.keeps fun _ hc => Sets.step hc

/-- A quiet part of a longer program. -/
theorem wp_quiet {p : Redis α} (hp : p.Issues Cmd.Quiet) (h : Sets id v l db) :
    Wp (expiringRedis origin) p (fun _ t => Sets id v l t) (fun t => TtlInv t id) db :=
  (keeps_quiet hp db h).mono (fun _ _ ht => ht) (fun _ ht => ht.inv)

theorem Cmd.Indexes.quiet {token : Nat} (c : Cmd) (h : c.Indexes id token) : c.Quiet := by
  unfold Cmd.Indexes at h
  split at h
  · trivial
  · trivial
  · intro f hf
    obtain rfl := List.mem_singleton.1 hf
    rfl
  · exact h.elim
  · exact h.elim
  · exact h.elim
  · exact h.elim
  · exact h.elim
  · exact h.elim
  · exact h.elim
  · unfold Cmd.Quiet
    split <;> simp_all

theorem renewNow_quiet : renewNow.Issues Cmd.Quiet :=
  .bind (.bind (.cmd trivial) fun _ => .ite (.pure _) (.throw _)) fun _ =>
    .bind (.cmd trivial) fun _ => .ite (.pure _) (.throw _)

theorem hset_quiet {fs : List StateField} (h : ∀ f ∈ fs, f.naming = false) :
    (write (.hsetState id fs)).Issues Cmd.Quiet :=
  .cmd h

/-- The rule for a write outside the quiet ones. -/
theorem wp_writeThen {w : Write} {f : Unit → Redis α} {Q : α → Db → Prop} {X : Db → Prop}
    (hX : X db) (h : Wp (expiringRedis origin) (f ()) Q X (w.apply db)) :
    Wp (expiringRedis origin) (write w >>= f) Q X db := by
  refine Wp.cmdBind hX ?_
  intro r t hstep
  obtain rfl : t = w.apply db := hstep.2
  exact h

namespace IdListSyncWorker

variable (w : IdListSyncWorker) {state : ListSyncState} {md : TaskMetadata}

theorem markForwardOnly_quiet : (w.markForwardOnly id).Issues Cmd.Quiet :=
  .ite (.pure _) (.bind (.cmd trivial) fun _ => hset_quiet (by simp [StateField.naming]))

/-! ## The committed set -/

/-- The committed set may lose its TTL. -/
theorem keeps_ensureCurrentVersionPersisted (hversion : state.version = v.getD "") :
    Keeps (expiringRedis origin) (Sets id v l) (ensureCurrentVersionPersisted id state) := by
  intro db h
  unfold ensureCurrentVersionPersisted
  refine .ite (fun _ => .pure h h) ?_
  intro hne
  have hv : v = some state.version := by
    cases v with
    | none => exact absurd hversion hne
    | some ver => rw [hversion, Option.getD_some]
  refine Wp.cmdBind h ?_
  intro r t hstep
  obtain ⟨_, _, rfl⟩ := hstep
  refine .when ?_ (fun _ => h) (fun _ => h)
  intro _
  have hpersisted : Sets id v l (t.setFwd id state.version (t.fwd id state.version).persist) :=
    h.setFwd (fun _ _ => rfl) (fun hother => absurd hv hother)
  exact wp_writeThen h (.pure hpersisted hpersisted)

/-- A change of the committed set keeps it without TTL. -/
theorem sets_deltaChange {c : FileChange} (h : Sets id (some ver) none db) :
    Sets id (some ver) none ((fwdWrite id ver c).apply db) := by
  have httl : (db.fwd id ver).ttl = false := h.inv.committed h.loading ver h.version
  rw [apply_fwdWrite]
  exact h.setFwd (fun _ _ => changeFwd_bare httl c) (fun hother => absurd rfl hother)

/-- What a delta sends. -/
def DeltaSends (id : ListId) (ver : String) (c : Cmd) : Prop :=
  c.Quiet ∨ ∃ change, c = .write (fwdWrite id ver change)

theorem deltaBatch_sends {token : Nat} {cs : List FileChange} {checkpoint : Nat} {first : Bool} :
    (w.applyFileBatch id ver (.delta token) cs checkpoint first).Issues (DeltaSends id ver) := by
  have hfwd : ∀ c, (write (fwdWrite id ver c)).Issues (DeltaSends id ver) :=
    fun c => .cmd (.inr ⟨c, rfl⟩)
  have hmember : ∀ c : FileChange,
      (write (memberWrite id.skh token c.add c.member)).Issues (DeltaSends id ver) := by
    intro c
    refine .cmd (.inl ?_)
    cases hadd : c.add <;> simp [memberWrite, Cmd.Quiet, Write.Quiet]
  refine .bind (.forEach (fun c => .ite (.bind (hmember c) fun _ => hfwd c) (hfwd c)) _) fun _ => ?_
  exact .bind (.cmd (.inl trivial)) fun _ =>
    (hset_quiet (by simp [StateField.naming])).mono fun _ hc => .inl hc

theorem keeps_delta (hversion : state.version = ver) :
    Keeps (expiringRedis origin) (Sets id (some ver) none) (w.applyDelta id state md) := by
  subst hversion
  refine .ite (.throw _) (.bind (keeps_ensureCurrentVersionPersisted rfl) fun _ => ?_)
  refine .bind (keeps_quiet (.cmd trivial)) fun token => .bind ?_ fun _ =>
    .ite (.throw _) (.pure ())
  have hsends : (w.applyFileStream id state.version md.url state.size md.size
      (.delta token)).Issues (DeltaSends id state.version) :=
    w.applyFileStream_sends (.inl trivial) (.inl trivial) fun _ _ _ => w.deltaBatch_sends
  refine hsends.keeps ?_
  intro c hc db r db' h hstep
  rcases hc with hquiet | ⟨change, rfl⟩
  · exact h.step hquiet db r db' hstep
  · obtain rfl : db' = (fwdWrite id state.version change).apply db := hstep.2
    exact sets_deltaChange h

/-! ## The pending set -/

/-- One more change creates no set, and leaves a batch that creates none. -/
theorem creates_of_cons {c : FileChange} {cs : List FileChange}
    (h : createsBare db ((c :: cs).map (fwdWrite id ver)) = false) :
    (c.add = true → (db.fwd id ver).members ≠ ∅) ∧
      createsBare ((fwdWrite id ver c).apply db) (cs.map (fwdWrite id ver)) = false := by
  rw [List.map_cons] at h
  cases hadd : c.add with
  | true =>
    simp only [fwdWrite, hadd, if_true, createsBare, Bool.or_eq_false_iff] at h ⊢
    refine ⟨fun _ hempty => ?_, h.2⟩
    -- The changes alone have no EXPIRE among them.
    have hexpire : ∃ change ∈ cs, fwdWrite id ver change = .expireFwd id ver := by
      simpa [hempty] using h.1
    obtain ⟨change, _, hchange⟩ := hexpire
    unfold fwdWrite at hchange
    split at hchange <;> simp at hchange
  | false =>
    simp only [fwdWrite, hadd, Bool.false_eq_true, if_false, createsBare] at h ⊢
    exact ⟨by simp, h⟩

/-- A batch without EXPIRE keeps the TTL, if it creates no set. -/
theorem ttlOk_changes {cs : List FileChange} (h : TtlOk (db.fwd id ver))
    (hbare : createsBare db (cs.map (fwdWrite id ver)) = false) :
    TtlOk (cs.foldl changeFwd (db.fwd id ver)) := by
  induction cs generalizing db with
  | nil => exact h
  | cons c cs ih =>
    obtain ⟨hadds, hrest⟩ := creates_of_cons hbare
    have hnext : TtlOk (changeFwd (db.fwd id ver) c) := by
      intro hmembers
      rw [changeFwd_members] at hmembers
      rw [changeFwd_ttl hmembers]
      refine h fun hempty => ?_
      cases hadd : c.add with
      | true => exact hadds hadd hempty
      | false => simp [FileChange.apply, hadd, hempty] at hmembers
    have hset : ((fwdWrite id ver c).apply db).fwd id ver = changeFwd (db.fwd id ver) c := by
      simp [apply_fwdWrite]
    rw [List.foldl_cons, ← hset]
    exact ih (hset ▸ hnext) hrest

theorem sets_loadBatch (hl : l ≠ none) {cs : List FileChange} {first : Bool} (h : Sets id v l db)
    (hbare : createsBare db (loadBatch id ver cs first) = false) :
    Sets id v l ((loadBatch id ver cs first).foldl Write.apply db) := by
  rw [foldl_loadBatch]
  refine h.setFwd (fun hnone => absurd hnone hl) fun hother => ?_
  have hbefore : TtlOk (db.fwd id ver) := h.inv.other ver (h.version ▸ hother)
  unfold batchFwd
  split
  · -- The EXPIRE comes last: whatever set is left then has its TTL.
    exact expire_ttl _
  · rename_i hexpire
    rw [loadBatch, if_neg hexpire, List.append_nil] at hbare
    exact ttlOk_changes hbefore hbare

/-- What a load sends. -/
def LoadSends (id : ListId) (ver : String) (c : Cmd) : Prop :=
  c.Quiet ∨ ∃ cs first, c = .multi (loadBatch id ver cs first)

theorem keeps_load (hl : l ≠ none) {start : Nat} :
    Keeps (expiringRedis origin) (Sets id v l) (w.loadReload id md ver start) := by
  have hhset : ∀ {fs : List StateField}, (∀ f ∈ fs, f.naming = false) →
      (write (.hsetState id fs)).Issues (LoadSends id ver) :=
    fun hfs => (hset_quiet hfs).mono fun _ hc => .inl hc
  have hbatch : ∀ cs checkpoint first,
      (w.applyFileBatch id ver .load cs checkpoint first).Issues (LoadSends id ver) :=
    fun cs _ first => .bind (.cmd (.inr ⟨cs, first, rfl⟩)) fun _ =>
      .bind (.cmd (.inl trivial)) fun _ => hhset (by simp [StateField.naming])
  have hsends : (w.loadReload id md ver start).Issues (LoadSends id ver) := by
    refine .ite (.bind ?_ fun _ => .ite (.throw _) ?_) ?_
    · exact w.applyFileStream_sends (.inl trivial) (.inl trivial) hbatch
    · exact .bind (hhset (by simp [StateField.naming])) fun _ => .pure _
    · exact .bind (hhset (by simp [StateField.naming])) fun _ => .pure _
  refine hsends.keeps ?_
  intro c hc db r db' h hstep
  rcases hc with hquiet | ⟨cs, first, rfl⟩
  · exact h.step hquiet db r db' hstep
  · obtain ⟨hguard, hstep⟩ := hstep
    obtain rfl : db' = (loadBatch id ver cs first).foldl Write.apply db := hstep
    exact sets_loadBatch hl h (by simpa [expiring] using hguard)

/-! ## Starting a load -/

/-- From here on a load of `newVer` is pending. -/
theorem sets_initializeLoad {h' : StateHash} (h : Sets id v l db)
    (hversion : h'.version = (db.state id).version) (hloading : h'.loadingVersion = some newVer) :
    Sets id v (some newVer) (db.setState id h') := by
  have hstate : (db.setState id h').state id = h' := by simp
  refine ⟨⟨?_, ?_, ?_⟩, ?_, ?_⟩
  · rw [hstate, hversion]
    exact h.inv.named
  · intro hnone
    rw [hstate, hloading] at hnone
    exact absurd hnone (by simp)
  · intro ver hver
    rw [hstate, hversion] at hver
    exact h.inv.other ver hver
  · rw [hstate, hversion, h.version]
  · rw [hstate, hloading]

theorem wp_startReload_ttl (hloading : state.loadingVersion = l) (h : Sets id v l db) :
    Wp (expiringRedis origin) (w.startReload id state newVer)
      (fun _ t => Sets id v (some newVer) t) (fun t => TtlInv t id) db := by
  have hmissing : ∀ {expected : Bool} {ver : String}, (keyMissing expected id ver).Issues Cmd.Quiet :=
    .ite (.bind (.cmd trivial) fun _ => .pure _) (.pure _)
  unfold startReload
  refine Wp.seq (wp_quiet hmissing h) fun oldMissing t₁ h₁ => ?_
  refine Wp.seq (wp_quiet hmissing h₁) fun pendingMissing t₂ h₂ => ?_
  refine Wp.seq (wp_quiet (.cmd trivial) h₂) fun _ t₃ h₃ => ?_
  refine Wp.seq (wp_quiet (.when (.bind (.cmd trivial) fun _ =>
    hset_quiet (by simp [StateField.naming]))) h₃) fun _ t₄ h₄ => ?_
  refine Wp.bind (.when ?_ (fun _ => h₄.inv) ?_)
  · intro _
    refine wp_writeThen h₄.inv ?_
    have h₅ : Sets id v l (t₄.setFwd id newVer {}) := h₄.delFwd
    refine wp_writeThen h₅.inv ?_
    have h₆ : Sets id v (some newVer) (Write.apply (t₄.setFwd id newVer {})
        (.hsetState id [.loadingVersion newVer, .loadingSize 0])) :=
      sets_initializeLoad h₅ rfl rfl
    refine (wp_quiet (.cmd ?_) h₆).mono (fun _ t ht => .pure ht.inv ht) (fun _ ht => ht)
    simp [Cmd.Quiet, Write.Quiet]
  · intro hresume
    have hl : l = some newVer := by
      simp only [Bool.not_eq_false', Bool.and_eq_true, decide_eq_true_eq] at hresume
      exact hloading.symm.trans hresume.1
    exact .pure h₄.inv (hl ▸ h₄)

/-! ## The commit -/

theorem wp_loggedWrite {wr : Write} {f : Unit → Redis α} {Q : α → Db × List Cmd → Prop}
    {X : Db × List Cmd → Prop} {t : Db × List Cmd} (hX : X t)
    (h : Wp (expiringRedis origin).logged (f ()) Q X (wr.apply t.1, t.2 ++ [.write wr])) :
    Wp (expiringRedis origin).logged (write wr >>= f) Q X t := by
  refine Wp.cmdBind hX ?_
  rintro r ⟨u, log⟩ ⟨hstep, hlog⟩
  obtain rfl : u = wr.apply t.1 := hstep.2
  obtain rfl : log = t.2 ++ [.write wr] := hlog
  exact h

/-- The version is published; its set is not persistent yet. -/
structure Published (id : ListId) (newVer : String) (fwd : String → FwdSet) (db : Db) : Prop where
  version : (db.state id).version = some newVer
  loading : (db.state id).loadingVersion = none
  fwd : db.fwd id = fwd

/-- Both sets have been seen to. -/
theorem Published.ttlInv {fwd : String → FwdSet} (h : Published id newVer fwd db)
    (hne : newVer ≠ "") (hnew : (fwd newVer).ttl = false)
    (hother : ∀ ver, ver ≠ newVer → (fwd ver).members ≠ ∅ → (fwd ver).ttl = true) :
    TtlInv db id := by
  refine ⟨?_, ?_, ?_⟩
  · rw [h.version]
    exact fun heq => hne (Option.some.inj heq)
  · intro _ ver hver
    rw [h.version] at hver
    rw [h.fwd, ← Option.some.inj hver]
    exact hnew
  · intro ver hver
    rw [h.fwd]
    rw [h.version] at hver
    exact hother ver fun heq => hver (heq ▸ rfl)

/-- The set of a version that is neither committed nor loading any more. -/
theorem other_ttl (h : Sets id v (some newVer) db) {old : String} (hold : v.getD "" = old)
    {ver : String} (hver : ver ≠ old) (hmembers : (db.fwd id ver).members ≠ ∅) :
    (db.fwd id ver).ttl = true := by
  refine h.inv.other ver ?_ hmembers
  intro heq
  rw [h.version] at heq
  rw [heq, Option.getD_some] at hold
  exact hver hold

/-- The end of a commit: PERSIST, and EXPIRE if there is an old set. -/
theorem wp_commitEnd {old : ListId → String} {oldVer : Option String} {fields : List StateField}
    {base : Db} (before tail : List Cmd) (hbase : Sets id v (some newVer) base)
    (hne : newVer ≠ "") (hold : v.getD "" = old id)
    (holdVer : oldVer = if old id ≠ "" ∧ old id ≠ newVer then some (old id) else none)
    (h : Published id newVer (base.fwd id) db) (htail : .write (.persistFwd id newVer) ∉ tail)
    (htail' : ∀ old, .write (.expireFwd id old) ∉ tail) :
    Wp (expiringRedis origin).logged (do
      write (.persistFwd id newVer)
      match oldVer with
      | some old => Prog.when (old ≠ newVer) (write (.expireFwd id old))
      | none => pure ()) (fun _ u => TtlInv u.1 id) (Leaves old id)
      (db, before ++ .write (.hsetState id (.version newVer :: fields)) :: tail) := by
  have hfwd : ∀ ver, ver ≠ newVer → (db.setFwd id newVer (db.fwd id newVer).persist).fwd id ver =
      base.fwd id ver := by
    intro ver hver
    simp [Function.update_of_ne hver, h.fwd]
  have hpublished : Published id newVer ((db.setFwd id newVer (db.fwd id newVer).persist).fwd id)
      (db.setFwd id newVer (db.fwd id newVer).persist) := ⟨h.version, h.loading, rfl⟩
  refine wp_loggedWrite (fun hthrough => absurd (commitsThrough_commit hthrough).1 htail) ?_
  simp only [List.append_assoc, List.cons_append]
  by_cases hexpire : old id ≠ "" ∧ old id ≠ newVer
  · rw [if_pos hexpire] at holdVer
    subst holdVer
    -- Only the EXPIRE is missing here.
    have hexit : ∀ u : Db, Leaves old id
        (u, before ++ .write (.hsetState id (.version newVer :: fields)) ::
          (tail ++ [.write (.persistFwd id newVer)])) := by
      intro u hthrough
      have hmem := (commitsThrough_commit hthrough).2 hexpire.1 hexpire.2
      rcases List.mem_append.1 hmem with hmem | hmem
      · exact absurd hmem (htail' _)
      · simp at hmem
    have hdone : TtlInv ((db.setFwd id newVer (db.fwd id newVer).persist).setFwd id (old id)
        ((db.setFwd id newVer (db.fwd id newVer).persist).fwd id (old id)).expire) id := by
      refine Published.ttlInv ⟨h.version, h.loading, rfl⟩ hne ?_ ?_
      · simp [Function.update_of_ne (Ne.symm hexpire.2), FwdSet.persist]
      · intro ver hver hmembers
        by_cases hver' : ver = old id
        · subst hver'
          simp only [Db.setFwd_fwd, Function.update_self] at hmembers ⊢
          exact expire_ttl _ hmembers
        · rw [Db.setFwd_fwd, Function.update_self, Function.update_of_ne hver', hfwd ver hver]
            at hmembers ⊢
          exact other_ttl hbase hold hver' hmembers
    refine .when ?_ (fun _ => hexit _) (fun hfalse => ?_)
    · intro _
      exact wp_loggedWrite (hexit _) (.pure (fun _ => hdone) hdone)
    · simp [hexpire.2] at hfalse
  · rw [if_neg hexpire] at holdVer
    subst holdVer
    have hdone : TtlInv (db.setFwd id newVer (db.fwd id newVer).persist) id := by
      refine hpublished.ttlInv hne (by simp [FwdSet.persist]) ?_
      intro ver hver hmembers
      rw [hfwd ver hver] at hmembers ⊢
      by_cases hver' : ver = old id
      · have hempty : ver = "" := by
          by_contra hnonempty
          exact hexpire ⟨hver' ▸ hnonempty, hver' ▸ hver⟩
        subst hempty
        exact hbase.inv.other "" hbase.inv.named hmembers
      · exact other_ttl hbase hold hver' hmembers
    exact .pure (fun _ => hdone) hdone

theorem wp_commitReload_ttl {old : ListId → String} {oldVer : Option String} {t : Db × List Cmd}
    (hnew : md.versionTag = newVer) (hold : v.getD "" = old id)
    (holdVer : oldVer = if old id ≠ "" ∧ old id ≠ newVer then some (old id) else none)
    (h : Sets id v (some newVer) t.1) :
    Wp (expiringRedis origin).logged (w.commitReload id newVer oldVer md)
      (fun _ u => TtlInv u.1 id) (Leaves old id) t := by
  have hne : newVer ≠ "" := hnew ▸ versionTag_ne_empty md.asIdListMetadata
  refine Wp.cmdBind (fun _ => h.inv) ?_
  rintro cardinality ⟨u, log⟩ ⟨⟨_, _, rfl⟩, hlog⟩
  obtain rfl : log = t.2 ++ [.scardFwd id newVer] := hlog
  refine wp_loggedWrite (fun _ => h.inv) ?_
  rw [hnew]
  -- From the HSET on a stop is inside the commit until PERSIST is sent.
  have hexit : ∀ {u : Db} {fields : List StateField} {tail : List Cmd},
      .write (.persistFwd id newVer) ∉ tail → Leaves old id
        (u, (t.2 ++ [.scardFwd id newVer]) ++
          .write (.hsetState id (.version newVer :: fields)) :: tail) :=
    fun htail hthrough => absurd (commitsThrough_commit hthrough).1 htail
  refine wp_loggedWrite (hexit (by simp)) ?_
  simp only [List.append_assoc, List.cons_append, List.nil_append] at hexit ⊢
  refine wp_loggedWrite (hexit (by simp)) ?_
  simp only [List.append_assoc, List.cons_append, List.nil_append]
  have hend : ∀ (u : Db) (tail : List Cmd), Published id newVer (t.1.fwd id) u →
      .write (.persistFwd id newVer) ∉ tail → (∀ old, .write (.expireFwd id old) ∉ tail) →
      Wp (expiringRedis origin).logged (do
        write (.persistFwd id newVer)
        match oldVer with
        | some old => Prog.when (old ≠ newVer) (write (.expireFwd id old))
        | none => pure ()) (fun _ u => TtlInv u.1 id) (Leaves old id)
        (u, t.2 ++ .scardFwd id newVer :: .write (.hsetState id [.version newVer, .fileId md.fileId,
          .url md.url, .creationTime md.creationTime, .size md.size, .cardinality cardinality]) ::
          tail) := by
    intro u tail hu htail htail'
    rw [← List.singleton_append, ← List.append_assoc]
    exact wp_commitEnd (t.2 ++ [.scardFwd id newVer]) tail h hne hold holdVer hu htail htail'
  refine Wp.bind (.when ?_ ?_ ?_)
  · intro _
    refine Wp.cmd (hexit (by simp)) ?_
    rintro r ⟨u, log⟩ ⟨hstep, hlog⟩
    obtain rfl := hstep.2
    obtain rfl := hlog
    simp only [List.append_assoc, List.cons_append, List.nil_append]
    refine ⟨hexit (by simp), hend _ _ ⟨?_, ?_, rfl⟩ (by simp) (by simp)⟩
    · simp [Write.apply, StateHash.setAll, StateHash.delAll, StateHash.set, StateHash.del]
    · simp [Write.apply, StateHash.setAll, StateHash.delAll, StateHash.set, StateHash.del]
  · intro _
    exact hexit (by simp)
  · intro _
    refine hend _ _ ⟨?_, ?_, rfl⟩ (by simp) (by simp)
    · simp [Write.apply, StateHash.setAll, StateHash.delAll, StateHash.set, StateHash.del]
    · simp [Write.apply, StateHash.setAll, StateHash.delAll, StateHash.set, StateHash.del]

/-! ## A full reload -/

section

variable {old : ListId → String} {t : Db × List Cmd}

/-- Outside a commit the log does not matter. -/
theorem wp_lifted {p : Redis α} {Q : α → Db → Prop}
    (h : Wp (expiringRedis origin) p Q (fun u => TtlInv u id) t.1) :
    Wp (expiringRedis origin).logged p (fun a u => Q a u.1) (Leaves old id) t :=
  h.logged.mono (fun _ _ hu => hu) (fun _ hu _ => hu)

theorem wp_kept {p : Redis α} (hp : Keeps (expiringRedis origin) (Sets id v l) p)
    (h : Sets id v l t.1) :
    Wp (expiringRedis origin).logged p (fun _ u => Sets id v l u.1) (Leaves old id) t :=
  wp_lifted ((hp t.1 h).mono (fun _ _ hu => hu) (fun _ hu => hu.inv))

theorem wp_publishReload_ttl {reconcile : Bool} {token loadingSize cursor : Nat}
    (hnew : md.versionTag = newVer) (hversion : state.version = old id)
    (hold : v.getD "" = old id) (h : Sets id v (some newVer) t.1) :
    Wp (expiringRedis origin).logged
      (w.publishReload id state md newVer reconcile token loadingSize cursor)
      (fun _ u => TtlInv u.1 id) (Leaves old id) t := by
  have hscard : ∀ {ver : Option String}, (scardOpt id ver).Issues Cmd.Quiet := by
    intro ver
    cases ver with
    | none => exact .pure _
    | some ver => exact .cmd trivial
  unfold publishReload
  refine Wp.seq (wp_kept (keeps_quiet hscard) h) fun oldCard t₁ h₁ => ?_
  refine Wp.seq (wp_kept (keeps_quiet (.cmd trivial)) h₁) fun newCard t₂ h₂ => ?_
  refine Wp.seq (wp_kept (keeps_quiet (.cmd trivial)) h₂) fun hash t₃ h₃ => ?_
  refine .ite (fun _ => .throw fun _ => h₃.inv) ?_
  intro _
  refine Wp.seq (wp_kept (keeps_quiet (.when (.bind (hset_quiet (by simp [StateField.naming]))
    fun _ => .cmd trivial))) h₃) fun _ t₄ h₄ => ?_
  refine Wp.seq (wp_kept (keeps_quiet (w.reindexReload_indexes.mono Cmd.Indexes.quiet)) h₄)
    fun _ t₅ h₅ => ?_
  refine Wp.seq (wp_kept (keeps_quiet renewNow_quiet) h₅) fun _ t₆ h₆ => ?_
  exact w.wp_commitReload_ttl hnew hold (by rw [hversion]) h₆

theorem keeps_reconcileCommittedForward (hversion : state.version = v.getD "") :
    Keeps (expiringRedis origin) (Sets id v l) (w.reconcileCommittedForward id state md) := by
  refine .ite (.pure _) (.bind (keeps_quiet (.cmd trivial)) fun cardinality => ?_)
  refine .ite (.pure _) (.bind (keeps_ensureCurrentVersionPersisted hversion) fun _ => ?_)
  refine .bind (keeps_quiet (hset_quiet (by simp [StateField.naming]))) fun _ => ?_
  refine .bind (keeps_quiet (.cmd trivial)) fun _ => .bind (keeps_quiet (.cmd trivial)) fun token => ?_
  refine .bind (keeps_quiet (w.clearReverseToken_indexes.mono Cmd.Indexes.quiet)) fun _ => ?_
  refine .bind (keeps_quiet (w.fanoutScan_indexes.mono Cmd.Indexes.quiet)) fun _ => ?_
  refine .bind (keeps_quiet renewNow_quiet) fun _ => .bind (keeps_quiet (.cmd ?_)) fun _ => .pure _
  simp [Cmd.Quiet, Write.Quiet]

theorem wp_applyFullReload_ttl (hversion : state.version = old id) (hold : v.getD "" = old id)
    (hloading : state.loadingVersion = l) (h : Sets id v l t.1) :
    Wp (expiringRedis origin).logged (w.applyFullReload id state md)
      (fun _ u => TtlInv u.1 id) (Leaves old id) t := by
  have hparsed : state.version = v.getD "" := hversion.trans hold.symm
  refine Wp.seq (wp_kept (w.keeps_reconcileCommittedForward hparsed) h) fun repaired t₁ h₁ => ?_
  refine .ite (fun _ => .pure (fun _ => h₁.inv) h₁.inv) ?_
  intro _
  refine Wp.seq (wp_lifted (w.wp_startReload_ttl hloading h₁)) fun started t₂ h₂ => ?_
  obtain ⟨reconcile, resume⟩ := started
  refine Wp.seq (wp_kept (keeps_quiet (.cmd trivial)) h₂) fun token t₃ h₃ => ?_
  split
  · exact w.wp_publishReload_ttl rfl hversion hold h₃
  · refine Wp.seq (wp_kept (w.keeps_load (by simp)) h₃) fun checkpoint t₄ h₄ => ?_
    exact w.wp_publishReload_ttl rfl hversion hold h₄

end

/-! ## A removal -/

/-- Without a state there is no committed set. -/
theorem ttlInv_delState (h : Sets id v l db)
    (hempty : ∀ ver, v = some ver → (db.fwd id ver).members = ∅) :
    TtlInv (db.setState id {}) id := by
  refine ⟨by simp, by simp, ?_⟩
  intro ver _ hmembers
  by_cases hver : v = some ver
  · exact absurd (hempty ver hver) hmembers
  · exact h.inv.other ver (h.version ▸ hver) hmembers

/-- The final pipeline leaves no set but those with a TTL. -/
theorem wp_removeCleanup_ttl {token : Option Nat} (hversion : state.version = v.getD "")
    (h : Sets id v l db) :
    Wp (expiringRedis origin) (removeCleanup id state token) (fun _ t => TtlInv t id)
      (fun t => TtlInv t id) db := by
  have hpending : Keeps (expiringRedis origin) (Sets id v l)
      (Prog.forEach (fun version => write (.delFwd id version)) state.loadingVersion.toList) := by
    refine .forEach (fun version => .cmd ?_) _
    intro db r db' hdb hstep
    obtain rfl : db' = db.setFwd id version {} := hstep.2
    exact hdb.delFwd
  refine Wp.seq ((hpending db h).mono (fun _ _ ht => ht) (fun _ ht => ht.inv)) fun _ t ht => ?_
  refine wp_writeThen ht.inv ?_
  have h₁ : Sets id v l (t.setFwd id state.version {}) := ht.delFwd
  have hempty : ∀ ver, v = some ver →
      ((t.setFwd id state.version {}).fwd id ver).members = ∅ := by
    rintro ver rfl
    have hver : ver = state.version := hversion.symm
    simp [hver]
  have h₂ : Sets id v l (Write.apply (t.setFwd id state.version {}) (.delMeta id)) :=
    h₁.write trivial
  have h₃ : Sets id v l (Write.apply (Write.apply (t.setFwd id state.version {}) (.delMeta id))
      (.hdelDict id token)) := h₂.write trivial
  have h₄ : Sets id v l (Write.apply (Write.apply (Write.apply (t.setFwd id state.version {})
      (.delMeta id)) (.hdelDict id token)) (.sremAll id)) := h₃.write trivial
  refine wp_writeThen h₁.inv (wp_writeThen h₂.inv (wp_writeThen h₃.inv ?_))
  have hdone := ttlInv_delState h₄ hempty
  exact wp_writeThen h₄.inv (.pure hdone hdone)

theorem wp_applyRemove_ttl (hversion : state.version = v.getD "") (h : Sets id v l db) :
    Wp (expiringRedis origin) (w.applyRemove id state) (fun _ t => TtlInv t id)
      (fun t => TtlInv t id) db := by
  refine Wp.seq (wp_quiet (.cmd trivial) h) fun hash t₁ h₁ => ?_
  refine Wp.seq (wp_quiet (.cmd trivial) h₁) fun token t₂ h₂ => ?_
  refine .ite (fun _ => .throw h₂.inv) ?_
  intro _
  refine Wp.seq (wp_quiet (.when (.forEach (fun _ =>
    w.removeFanout_indexes.mono Cmd.Indexes.quiet) _)) h₂) fun _ t₃ h₃ => ?_
  refine Wp.seq (wp_quiet (.when (hset_quiet (by simp [StateField.naming]))) h₃) fun _ t₄ h₄ => ?_
  exact wp_removeCleanup_ttl hversion h₄

/-! ## One execution -/

variable {old : ListId → String} {t : Db × List Cmd}

/-- The state a worker parses, beside the versions it names. -/
structure Parses (state : ListSyncState) (v l : Option String) : Prop where
  version : state.version = v.getD ""
  loading : state.loadingVersion = l

theorem wp_runPlanned_ttl {action : WorkerAction} (hstate : Parses state v l)
    (hold : v.getD "" = old id) (hdelta : action = .delta → state.version ≠ "" ∧ l = none)
    (h : Sets id v l t.1) :
    Wp (expiringRedis origin).logged (w.runPlanned id state action md)
      (fun _ u => TtlInv u.1 id) (Leaves old id) t := by
  refine Wp.seq (wp_kept (keeps_quiet w.markForwardOnly_quiet) h) fun _ t₁ h₁ => ?_
  have haction : Wp (expiringRedis origin).logged (w.runAction id state md action)
      (fun _ u => TtlInv u.1 id) (Leaves old id) t₁ := by
    cases action with
    | delta =>
      obtain ⟨hne, rfl⟩ := hdelta rfl
      have hv : v = some state.version := by
        cases v with
        | none => exact absurd hstate.version hne
        | some ver => rw [hstate.version, Option.getD_some]
      subst hv
      exact (wp_kept (w.keeps_delta rfl) h₁).mono (fun _ _ hu => hu.inv) (fun _ hu => hu)
    | fullReload =>
      exact w.wp_applyFullReload_ttl (hstate.version.trans hold) hold hstate.loading h₁
    | remove => exact wp_lifted (w.wp_applyRemove_ttl hstate.version h₁)
  exact Wp.seq haction fun _ u hu => .pure (fun _ => hu) hu

/-- Planning keeps the sets, and a delta is planned only beside a committed
version with no load pending. -/
theorem wp_planWork_ttl {stateExists : Bool} {task : TaskMetadata} (hstate : Parses state v l)
    (h : Sets id v l t.1) :
    Wp (expiringRedis origin).logged (w.planWork id stateExists state task)
      (fun plan u => Sets id v l u.1 ∧ ∀ target, plan = some (.delta, target) →
        state.version ≠ "" ∧ l = none) (Leaves old id) t := by
  have hexists : (forwardExists id stateExists state).Issues Cmd.Quiet := .ite (.cmd trivial) (.pure _)
  refine Wp.seq (wp_kept (keeps_quiet hexists) h) fun fwdExists t₁ h₁ => ?_
  cases hplan : w.planAction stateExists state task fwdExists with
  | error e => exact .throw fun _ => h₁.inv
  | ok plan =>
    cases plan with
    | none =>
      refine Wp.seq (wp_kept (keeps_ensureCurrentVersionPersisted hstate.version) h₁) ?_
      intro _ t₂ h₂
      exact .pure (fun _ => h₂.inv) ⟨h₂, by simp⟩
    | some plan =>
      refine .pure (fun _ => h₁.inv) ⟨h₁, ?_⟩
      rintro target heq
      obtain rfl := Option.some.inj heq
      obtain ⟨_, _, hsync⟩ := planAction_delta hplan
      obtain ⟨hversion, _, _, _, hloading, _⟩ := plan_delta hsync
      exact ⟨hversion, hstate.loading.symm.trans hloading⟩

theorem wp_runClaimed_ttl (hold : db.version id = old id) (h : TtlInv db id) {log : List Cmd} :
    Wp (expiringRedis origin).logged (w.runClaimed id) (fun _ u => TtlInv u.1 id) (Leaves old id)
      (db, log) := by
  have hsets : Sets id (db.state id).version (db.state id).loadingVersion db := ⟨h, rfl, rfl⟩
  have hparses : Parses (ListSyncState.fromHashFields (db.state id)) (db.state id).version
      (db.state id).loadingVersion := ⟨rfl, rfl⟩
  refine Wp.cmdBind (fun _ => h) ?_
  rintro metaFields ⟨u, log₁⟩ ⟨⟨_, rfl, rfl⟩, _⟩
  refine Wp.cmdBind (fun _ => h) ?_
  rintro stateFields ⟨u', log₂⟩ ⟨⟨_, rfl, rfl⟩, _⟩
  cases taskMetadata (u'.taskMeta id) (u'.state id) with
  | error e => exact .throw fun _ => h
  | ok task =>
    cases task with
    | none => exact .pure (fun _ => h) h
    | some md =>
      cases hop : md.op with
      | remove =>
        simp only [hop]
        exact w.wp_runPlanned_ttl hparses hold (by simp) hsets
      | load =>
        simp only [hop]
        refine Wp.seq (w.wp_planWork_ttl hparses hsets) ?_
        rintro plan t₁ ⟨h₁, hdelta⟩
        cases plan with
        | none => exact .pure (fun _ => h₁.inv) h₁.inv
        | some plan =>
          obtain ⟨action, target⟩ := plan
          exact w.wp_runPlanned_ttl hparses hold (fun ha => hdelta target (by rw [ha])) h₁

/-- A guarded, logged run is a run. -/
theorem exec_plain {p : Redis α} {t u : Db × List Cmd} {o : Outcome WorkerError α}
    (he : Exec (expiringRedis origin).logged p t u o) : Exec (redis origin) p t.1 u.1 o := by
  have hfst : ∀ (s : Db × List Cmd) (c : Cmd) (r : c.Reply) (s' : Db × List Cmd),
      (expiringRedis origin).logged.step s c r s' → (redis origin).step s.1 c r s'.1 :=
    fun _ _ _ _ hstep => hstep.1.2
  exact he.simulate hfst

theorem wp_runOnce_ttl (hok : db.Ok) (h : TtlInv db id) :
    Wp (expiringRedis origin).logged w.runOnce (fun _ u => TtlInv u.1 id) (Leaves db.version id)
      (db, []) := by
  refine Wp.cmdBind (fun _ => h) ?_
  rintro popped ⟨u, log₁⟩ ⟨⟨_, rest, _, rfl⟩, hlog₁⟩
  have hu : TtlInv { db with queue := rest } id := h.congr rfl rfl
  cases popped with
  | none => exact .pure (fun _ => hu) hu
  | some i =>
    refine Wp.cmdBind (fun _ => hu) ?_
    rintro claimed ⟨u', log₂⟩ ⟨hstep, hlog₂⟩
    obtain rfl : u' = { db with queue := rest } := hstep.2
    refine .ite ?_ fun _ => .pure (fun _ => hu) hu
    intro _
    have hclaimed : Wp (expiringRedis origin).logged (w.runClaimed i) (fun _ u => TtlInv u.1 id)
        (Leaves db.version id) ({ db with queue := rest }, log₂) := by
      by_cases hi : i = id
      · subst hi
        exact w.wp_runClaimed_ttl rfl hu
      · -- The run is on another list.
        intro t o he
        have hpopped : ({ db with queue := rest } : Db).Ok := hok.congr rfl rfl
        have htidy := w.runClaimed_tidy hpopped (exec_plain he)
        have hid : id ≠ i := fun heq => hi heq.symm
        have ht : TtlInv t.1 id := hu.congr (htidy.2.state id hid) (htidy.2.fwd id hid)
        exact ⟨fun _ _ => ht, fun _ _ => ht⟩
    refine Wp.seq hclaimed ?_
    intro outcome t ht
    refine Wp.cmdBind (fun _ => ht) ?_
    rintro r ⟨t', log₃⟩ ⟨hstep, _⟩
    obtain rfl : t' = t.1 := hstep.2
    exact .pure (fun _ => ht) ht

end IdListSyncWorker

/-! ## Whole runs -/

/-- Ticks of any producers, expiries, and executions by any workers; the
commands of an execution meet `guard`, and its log meets `P`. -/
inductive TtlStep (guard : Db → Cmd → Bool) (P : Db → List Cmd → Prop) : Db → Db → Prop
  | tick {db db' : Db} (p : IdListSyncProducer) (origin : String → List UInt8)
      (o : Outcome WorkerError ProducerTickStats)
      (he : Exec (redis origin) p.produceLocked db db' o) : TtlStep guard P db db'
  | expired (db : Db) (id : ListId) : TtlStep guard P db (db.setTaskMeta id {})
  | fwdExpired (db : Db) (id : ListId) (ver : String) (httl : (db.fwd id ver).ttl = true) :
      TtlStep guard P db (db.setFwd id ver {})
  | execution {db db' : Db} (w : IdListSyncWorker) (origin : String → List UInt8) (log : List Cmd)
      (o : Outcome WorkerError IdListSyncWorker.WorkerRunOutcome)
      (he : Exec ((redis origin).under guard).logged w.runOnce (db, []) (db', log) o)
      (hP : P db log) : TtlStep guard P db db'

/-- The runs in which every commit is carried through and no load creates a
set without TTL. -/
abbrev CarefulStep : Db → Db → Prop :=
  TtlStep expiring fun db log => commitsThrough db.version log = true

def AllTtl (db : Db) : Prop := db.Ok ∧ ∀ id, TtlInv db id

theorem allTtl_step (h : AllTtl db) (hstep : CarefulStep db db') : AllTtl db' := by
  cases hstep with
  | tick p origin o he =>
    have hticked := p.ticked_produceLocked he
    refine ⟨hticked.ok h.1, fun id => ?_⟩
    exact (h.2 id).congr (by rw [hticked.state]) (by rw [hticked.fwd])
  | expired id =>
    exact ⟨h.1.congr rfl rfl, fun j => (h.2 j).congr rfl rfl⟩
  | fwdExpired id ver httl =>
    refine ⟨h.1.congr rfl rfl, fun j => ?_⟩
    by_cases hj : j = id
    · subst hj
      have hsets : Sets j (db.state j).version (db.state j).loadingVersion db := ⟨h.2 j, rfl, rfl⟩
      exact hsets.delFwd.inv
    · refine (h.2 j).congr rfl ?_
      simp [Function.update_of_ne hj]
  | execution w origin log o he hthrough =>
    refine ⟨w.runOnce_ok h.1 (IdListSyncWorker.exec_plain he), fun id => ?_⟩
    have hleaves : Leaves db.version id (db', log) :=
      (w.wp_runOnce_ttl h.1 (h.2 id)).always (fun _ _ hu _ => hu) he
    exact hleaves hthrough

theorem reach_allTtl (hrun : Relation.ReflTransGen CarefulStep {} db) : AllTtl db := by
  induction hrun with
  | refl => exact ⟨empty_ok, fun _ => ⟨by simp, by simp, by simp⟩⟩
  | tail _ hstep ih => exact allTtl_step ih hstep

/-- Only the committed set of the list is without TTL. -/
def TtlDisciplined (db : Db) (id : ListId) : Prop :=
  ∀ ver, (db.fwd id ver).members ≠ ∅ → ((db.fwd id ver).ttl = true ↔ ver ≠ db.version id)

theorem version_of_plan_none {md : IdListMetadata} {fwdExists enabled : Bool}
    (hplan : planSyncWithReverseIndex (IdListSyncProducer.parseState (db.state id)) md fwdExists
      enabled = none) : ∃ ver, (db.state id).version = some ver ∧ ver ≠ "" := by
  have hversion : db.version id ≠ "" := by
    intro hempty
    have hparsed : (ListSyncState.fromHashFields (db.state id)).version = "" := hempty
    unfold IdListSyncProducer.parseState at hplan
    split at hplan <;>
      simp [planSyncWithReverseIndex, needsWorkWithReverseIndex, hparsed] at hplan
  unfold Db.version at hversion
  cases hver : (db.state id).version with
  | none => simp [hver] at hversion
  | some ver => exact ⟨ver, rfl, by simpa [hver] using hversion⟩

/-- **The TTLs of a synced list**, along a careful run: where the planner
has no work for an entry of the committed file, or for another entry while
no load is pending, the committed set has no TTL and every other set of the
list has one. -/
theorem forward_ttl_discipline {md : IdListMetadata} {enabled : Bool}
    (hrun : Relation.ReflTransGen CarefulStep {} db)
    (hplan : planSyncWithReverseIndex (IdListSyncProducer.parseState (db.state id)) md
      (db.forwardExists id) enabled = none)
    (hentry : md.fileId = (ListSyncState.fromHashFields (db.state id)).fileId ∨
      (db.state id).loadingVersion = none) : TtlDisciplined db id := by
  have hinv := (reach_allTtl hrun).2 id
  have hloading : (db.state id).loadingVersion = none := by
    rcases hentry with hfile | hnone
    · exact (quiet_of_plan_none hfile hplan).2.2.1
    · exact hnone
  obtain ⟨committed, hcommitted, _⟩ := version_of_plan_none hplan
  have hversion : db.version id = committed := by simp [Db.version, hcommitted]
  intro ver hmembers
  rw [hversion]
  constructor
  · rintro httl rfl
    simp [hinv.committed hloading ver hcommitted] at httl
  · intro hne
    refine hinv.other ver ?_ hmembers
    rw [hcommitted]
    exact fun heq => hne (Option.some.inj heq).symm

/-! A first load, carried through; and the same load, stopped after the
second command of its commit. -/

def carefulLoad : Db × List Cmd :=
  ((scripted smallOrigin).under expiring).logged.after 100 (smallWorker true).runOnce
    (tickedLoad, []) [.popped (some smallList), .body ⟨[[43, 97, 10]], none⟩, .pages [["a"]]]

/-- The list is to be loaded from another file. -/
def tickedSecond : Db := tickOnce [("l", ⟨"G", 2, "v", 3⟩)] ["l"] carefulLoad.1

/-- The second file adds `b`. -/
def secondOrigin (url : String) : List UInt8 :=
  if url = "v" then [43, 98, 10] else smallOrigin url

/-- The second load, stopped before its commit: its set has been written. -/
def cutOffSecond : Db × List Cmd :=
  ((scripted secondOrigin).under expiring).logged.after 16 (smallWorker true).runOnce
    (tickedSecond, []) [.popped (some smallList), .body ⟨[[43, 98, 10]], none⟩]

def tickedResume : Db := tickOnce [("l", ⟨"G", 2, "v", 3⟩)] ["l"] cutOffSecond.1

/-- The second load, resumed and carried through. -/
def carefulSecond : Db × List Cmd :=
  ((scripted secondOrigin).under expiring).logged.after 100 (smallWorker true).runOnce
    (tickedResume, []) [.popped (some smallList), .pages [["a"]], .pages [["b"]], .order ["a"]]

theorem careful_runs :
    Exec (expiringRedis smallOrigin).logged (smallWorker true).runOnce (tickedLoad, [])
      carefulLoad (.ok (.completed .fullReload)) ∧
    Exec (redis smallOrigin) (smallProducer [("l", ⟨"G", 2, "v", 3⟩)]).produceLocked
      carefulLoad.1 tickedSecond (.ok ⟨1, 0, 1, 0, 1⟩) ∧
    Exec (expiringRedis secondOrigin).logged (smallWorker true).runOnce (tickedSecond, [])
      cutOffSecond .stopped ∧
    Exec (redis smallOrigin) (smallProducer [("l", ⟨"G", 2, "v", 3⟩)]).produceLocked
      cutOffSecond.1 tickedResume (.ok ⟨1, 0, 1, 0, 1⟩) ∧
    Exec (expiringRedis secondOrigin).logged (smallWorker true).runOnce (tickedResume, [])
      carefulSecond (.ok (.completed .fullReload)) :=
  ⟨((scripted smallOrigin).under expiring).logged.after_sound (by decide +kernel),
    tickOnce_exec (by decide +kernel),
    ((scripted secondOrigin).under expiring).logged.after_sound (by decide +kernel),
    tickOnce_exec (by decide +kernel),
    ((scripted secondOrigin).under expiring).logged.after_sound (by decide +kernel)⟩

-- Evaluated by the kernel only.
attribute [irreducible] carefulLoad tickedSecond cutOffSecond tickedResume carefulSecond

/-- After a load that stopped and was resumed, the set of the first file
expires and the set of the second does not. -/
theorem forward_ttl_discipline_load : TtlDisciplined carefulSecond.1 smallList ∧
    carefulSecond.1.version smallList = "G@2" ∧
    (carefulSecond.1.fwd smallList "F@1").members = {"a"} ∧
    (carefulSecond.1.fwd smallList "G@2").members = {"b"} := by
  obtain ⟨hfirst, hsecond, hstop, hresume, hlast⟩ := careful_runs
  have hload : CarefulStep tickedLoad carefulLoad.1 :=
    .execution _ _ carefulLoad.2 _ hfirst (by decide +kernel)
  have hcut : CarefulStep tickedSecond cutOffSecond.1 :=
    .execution _ _ cutOffSecond.2 _ hstop (by decide +kernel)
  have hresumed : CarefulStep tickedResume carefulSecond.1 :=
    .execution _ _ carefulSecond.2 _ hlast (by decide +kernel)
  have hloaded : Relation.ReflTransGen CarefulStep {} carefulLoad.1 :=
    .tail (.single (.tick _ _ _ ticked_runs.1)) hload
  have hstopped : Relation.ReflTransGen CarefulStep {} cutOffSecond.1 :=
    .tail (.tail hloaded (.tick _ _ _ hsecond)) hcut
  have hrun : Relation.ReflTransGen CarefulStep {} carefulSecond.1 :=
    .tail (.tail hstopped (.tick _ _ _ hresume)) hresumed
  have hplan : planSyncWithReverseIndex
      (IdListSyncProducer.parseState (carefulSecond.1.state smallList)) ⟨"G", 2, "v", 3⟩
      (carefulSecond.1.forwardExists smallList) true = none := by
    decide +kernel
  exact ⟨forward_ttl_discipline hrun hplan (.inl (by decide +kernel)), by decide +kernel,
    by decide +kernel, by decide +kernel⟩

/-- The guard of a run without removals. -/
def loadsOnly (_ : Db) : Cmd → Bool
  | .write (.hsetState _ [.removalFanoutComplete]) => false
  | .write (.delState _) => false
  | _ => true

def cutOffCommit : Db × List Cmd :=
  ((scripted smallOrigin).under loadsOnly).logged.after 26 (smallWorker true).runOnce
    (tickedLoad, []) [.popped (some smallList), .body ⟨[[43, 97, 10]], none⟩, .pages [["a"]]]

theorem cut_off_commit : Exec ((redis smallOrigin).under loadsOnly).logged
    (smallWorker true).runOnce (tickedLoad, []) cutOffCommit .stopped :=
  ((scripted smallOrigin).under loadsOnly).logged.after_sound (by decide +kernel)

theorem reach_cutOffCommit :
    Relation.ReflTransGen (TtlStep loadsOnly fun _ _ => True) {} cutOffCommit.1 := by
  have hcut : TtlStep loadsOnly (fun _ _ => True) tickedLoad cutOffCommit.1 :=
    .execution _ _ cutOffCommit.2 _ cut_off_commit True.intro
  exact .tail (.single (.tick _ _ _ ticked_runs.1)) hcut

theorem cutOffCommit_ttl : ∃ (db : Db) (id : ListId) (md : IdListMetadata) (ver : String),
    Relation.ReflTransGen (TtlStep loadsOnly fun _ _ => True) {} db ∧
    id ∉ db.queue.map Prod.snd ∧
    planSyncWithReverseIndex (IdListSyncProducer.parseState (db.state id)) md
      (db.forwardExists id) true = none ∧
    (db.fwd id ver).members ≠ ∅ ∧ (db.fwd id ver).ttl = true ∧ ver = db.version id :=
  ⟨cutOffCommit.1, smallList, ⟨"F", 1, "u", 3⟩, "F@1", reach_cutOffCommit, by decide +kernel,
    by decide +kernel, by decide +kernel, by decide +kernel, by decide +kernel⟩

/-- A worker that stops inside its commit leaves a synced list whose set
expires. -/
theorem ttl_after_cut_off_commit : ¬ ∀ (db : Db) (id : ListId) (md : IdListMetadata)
    (enabled : Bool), Relation.ReflTransGen (TtlStep loadsOnly fun _ _ => True) {} db →
    id ∉ db.queue.map Prod.snd →
    planSyncWithReverseIndex (IdListSyncProducer.parseState (db.state id)) md
      (db.forwardExists id) enabled = none → TtlDisciplined db id := by
  intro hclaim
  obtain ⟨db, id, md, ver, hrun, hqueue, hplan, hmembers, httl, hver⟩ := cutOffCommit_ttl
  exact (hclaim db id md true hrun hqueue hplan ver hmembers).1 httl hver

end ForwardProxy.IdList
