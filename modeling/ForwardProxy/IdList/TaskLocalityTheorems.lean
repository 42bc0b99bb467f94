/-
ForwardProxy.IdList.TaskLocalityTheorems — every function of the worker
sends local commands only, and so a whole task keeps to its list.

The `_issues` lemmas follow the functions of `Worker` one by one.
`runClaimed_local` puts them together around the two commands that change
the dictionary: the allocation of the list's token, before which no
reverse-index write is sent, and the clean-up at the end of a removal.
-/
import ForwardProxy.Effect.Protocol
import ForwardProxy.IdList.LocalityTheorems

namespace ForwardProxy.IdList

open Effect

variable {id : ListId} {target : Option TaskMetadata} {tok : Option Nat} {σ : Type}

theorem write_issues {w : Write} (h : w.OfTask id target tok) :
    (write w).Issues (Cmd.OfTask id target tok) :=
  .cmd h

/-- An HSET of progress fields. -/
theorem hset_issues {fs : List StateField} (h : fs.all StateField.progress = true) :
    (write (.hsetState id fs)).Issues (Cmd.OfTask id target tok) :=
  write_issues ⟨rfl, .inl h⟩

theorem ensureHeld_issues : ensureHeld.Issues (Cmd.OfTask id target tok) :=
  .bind (.cmd trivial) fun _ => .ite (.pure _) (.throw _)

theorem renewNow_issues : renewNow.Issues (Cmd.OfTask id target tok) :=
  .bind ensureHeld_issues fun _ => .bind (.cmd trivial) fun _ => .ite (.pure _) (.throw _)

theorem keyMissing_issues {expected : Bool} {i : ListId} {ver : String} :
    (keyMissing expected i ver).Issues (Cmd.OfTask id target tok) :=
  .ite (.bind (.cmd trivial) fun _ => .pure _) (.pure _)

theorem scardOpt_issues {i : ListId} {ver : Option String} :
    (scardOpt i ver).Issues (Cmd.OfTask id target tok) := by
  cases ver with
  | none => exact .pure _
  | some v => exact .cmd trivial

theorem renewNow_indexes {token : Nat} : renewNow.Issues (Cmd.Indexes id token) :=
  .bind (.bind (.cmd trivial) fun _ => .ite (.pure _) (.throw _)) fun _ =>
    .bind (.cmd trivial) fun _ => .ite (.pure _) (.throw _)

theorem foldPages_indexes {token : Nat} {body : σ → List String → Redis σ}
    (hbody : ∀ acc page, (body acc page).Issues (Cmd.Indexes id token)) :
    ∀ (pages : List (List String)) (acc : σ) (n : Nat),
      (foldPages body acc n pages).Issues (Cmd.Indexes id token)
  | [], acc, _ => .pure acc
  | page :: pages, acc, n =>
      .bind (hbody acc page) fun acc' =>
        .bind (.when renewNow_indexes) fun _ => foldPages_indexes hbody pages acc' (n + 1)

theorem keyMissing_indexes {token : Nat} {expected : Bool} {i : ListId} {ver : String} :
    (keyMissing expected i ver).Issues (Cmd.Indexes id token) :=
  .ite (.bind (.cmd trivial) fun _ => .pure _) (.pure _)

/-- What a task leaves, however far it got: the dictionary invariant, and
everything outside its list unchanged. -/
def Tidy (id : ListId) (db₀ db : Db) : Prop := db.Ok ∧ Frame id (db₀.tokenOf id) db₀ db

variable {origin : String → List UInt8} {db₀ db : Db} {β : Type}

theorem Local.tidy (h : Local id db₀ tok db) : Tidy id db₀ db := ⟨h.ok, h.frame⟩

theorem Local.forget (h : Local id db₀ tok db) : Local id db₀ none db :=
  ⟨h.ok, h.frame, h.tokenOf, by simp⟩

theorem Local.refl (hok : db.Ok) (id : ListId) : Local id db none db :=
  ⟨hok, Frame.refl _ _ _, rfl, by simp⟩

theorem list_ne_of_ne {j : ListId} (hj : j ≠ id) (hskh : j.skh = id.skh) : j.list ≠ id.list := by
  intro hlist
  obtain ⟨skh, list⟩ := j
  obtain ⟨skh', list'⟩ := id
  simp only at hskh hlist
  subst hskh hlist
  exact hj rfl

/-- Another list keeps its token. -/
theorem Frame.token_other {t : Nat} (h : Frame id t db₀ db) {j : ListId} (hj : j ≠ id) :
    (db.dict j.skh).token j.list = (db₀.dict j.skh).token j.list := by
  by_cases hskh : j.skh = id.skh
  · rw [hskh]
    exact h.token _ (list_ne_of_ne hj hskh)
  · rw [h.dict _ hskh]

/-- Another list's entry of the dictionary is not the task's. -/
theorem token_ne_of_ne (hok : db₀.Ok) {j : ListId} (hj : j ≠ id) (hskh : j.skh = id.skh) {t : Nat}
    (ht : (db₀.dict j.skh).token j.list = some t) : t ≠ db₀.tokenOf id := by
  intro heq
  rw [hskh] at ht
  cases hid : (db₀.dict id.skh).token id.list with
  | none =>
    have hle := (hok id.skh).token_le _ _ ht
    simp only [Db.tokenOf, hid, Option.getD_none] at heq
    omega
  | some t' =>
    simp only [Db.tokenOf, hid, Option.getD_some] at heq
    subst heq
    have h₁ := (hok id.skh).name_of_token _ _ ht
    have h₂ := (hok id.skh).name_of_token _ _ hid
    exact list_ne_of_ne hj hskh (Option.some.inj (h₁.symm.trans h₂))

/-- Another list's state, sets and index are what they were. -/
theorem Tidy.other (hok : db₀.Ok) (h : Tidy id db₀ db) {j : ListId} (hj : j ≠ id) :
    (db.view j).state = (db₀.view j).state ∧ (db.view j).fwd = (db₀.view j).fwd ∧
      (db.view j).tag = (db₀.view j).tag := by
  obtain ⟨hok', hframe⟩ := h
  refine ⟨hframe.state j hj, ?_, ?_⟩
  · funext ver
    exact congrArg FwdSet.members (congrFun (hframe.fwd j hj) ver)
  · rw [view_tag hok', view_tag hok]
    ext m
    show (∃ t, _) ↔ ∃ t, _
    rw [hframe.token_other hj]
    refine exists_congr fun t => and_congr_right fun ht => ?_
    exact hframe.member j.skh m t fun hskh => token_ne_of_ne hok hj hskh ht

/-! ## The protocol of a task -/

/-- A task sends its commands under its token, once it has allocated it. -/
def taskProtocol (id : ListId) (target : Option TaskMetadata) : Protocol Cmd Cmd.Reply (Option Nat) where
  allows tok c := c = .allocToken id ∨ c.OfTask id target tok
  next tok c r := match c, r with
    | .allocToken _, t => some t
    | _, _ => tok

theorem follows_of_issues {p : Redis β} (h : p.Issues (Cmd.OfTask id target tok)) :
    p.Follows (taskProtocol id target) (fun _ => True) tok := by
  refine .of_issues (fun c hc => ⟨Or.inr hc, fun r => ?_⟩) trivial h
  cases c with
  | allocToken i => exact hc.elim
  | _ => rfl

theorem follows_alloc {f : Nat → Redis β} (hf : ∀ t, (f t).Issues (Cmd.OfTask id target (some t))) :
    (getOrAllocateToken id >>= f).Follows (taskProtocol id target) (fun _ => True) tok :=
  ⟨.inl rfl, fun t => follows_of_issues (hf t)⟩

/-- What every write of a task keeps, whatever its token, and no entry of
the dictionary matters to, a program of the task keeps. -/
theorem task_follows {I : Db → Prop}
    (hI : ∀ {tok : Option Nat} {wr : Write} {db : Db}, wr.OfTask id target tok → I db →
      I (wr.apply db))
    (halloc : ∀ {db : Db} {d : Dict}, I db → I (db.setDict id.skh d)) {p : Redis β}
    (hp : p.Follows (taskProtocol id target) (fun _ => True) tok) : Keeps (redis origin) I p := by
  intro db hdb
  have hwp : Wp (redis origin) p _ _ db := hp.wp (I := fun _ => I) ?_ hdb
  · refine hwp.mono ?_ ?_
    · rintro _ t ⟨_, _, h⟩
      exact h
    · rintro t ⟨_, h⟩
      exact h
  · rintro tok c (rfl | hc) a r b ha hstep
    · obtain ⟨_, rfl⟩ := hstep
      exact halloc ha
    · exact task_keeps hI hc a r b ha hstep

/-- A program that follows the protocol keeps to its list. -/
theorem Local.keeps {p : Redis β}
    (hp : p.Follows (taskProtocol id target) (fun _ => True) none) :
    Keeps (redis origin) (Local id db₀ none) p := by
  intro db hdb
  have hwp : Wp (redis origin) p _ _ db := hp.wp (I := Local id db₀) ?_ hdb
  · refine hwp.mono ?_ ?_
    · rintro _ t ⟨_, _, h⟩
      exact h.forget
    · rintro t ⟨_, h⟩
      exact h.forget
  · rintro tok c (rfl | hc) a r b ha hstep
    · obtain ⟨hr, rfl⟩ := hstep
      have htok : r = db₀.tokenOf id := hr.trans ((alloc_token a id).trans ha.tokenOf)
      subst htok
      exact ha.forget.alloc
    · have hnext : (taskProtocol id target).next tok c r = tok := by
        cases c with
        | allocToken i => exact hc.elim
        | _ => rfl
      rw [hnext]
      exact Local.step hc a r b ha hstep

namespace IdListSyncWorker

variable (w : IdListSyncWorker) {token : Nat}

/-! ## Scans and fan-out -/

theorem verifyScanKeyBefore_indexes {ver : String} {card : Nat} :
    (w.verifyScanKeyBefore id ver card).Issues (Cmd.Indexes id token) :=
  .ite (.bind (.cmd trivial) fun _ => .ite (.pure _) (.throw _)) (.pure _)

theorem verifyScanComplete_indexes {ver : String} {card scanned : Nat} :
    (w.verifyScanComplete id ver card scanned).Issues (Cmd.Indexes id token) :=
  .ite (.throw _) (.ite (.bind (.cmd trivial) fun _ => .ite (.pure _) (.throw _)) (.pure _))

theorem memberWrite_indexes {add : Bool} {m : String} :
    (write (memberWrite id.skh token add m)).Issues (Cmd.Indexes id token) := by
  cases add <;> exact .cmd ⟨rfl, rfl⟩

theorem fanoutMembers_indexes {members : List String} {add : Bool} :
    (w.fanoutMembers id.skh members token add).Issues (Cmd.Indexes id token) :=
  .forEach (fun _ => .forEach (fun _ => memberWrite_indexes) _) _

theorem fanoutScan_indexes {ver : String} {add : Bool} {card : Nat} :
    (w.fanoutScan id ver token add card).Issues (Cmd.Indexes id token) :=
  .bind w.verifyScanKeyBefore_indexes fun _ => .bind (.cmd trivial) fun pages =>
    .bind (foldPages_indexes (fun _ _ => w.fanoutMembers_indexes) pages _ _) fun _ =>
      w.verifyScanComplete_indexes

theorem scanPartition_indexes {ver : String} {card part partitions : Nat} :
    (w.scanPartition id ver card part partitions).Issues (Cmd.Indexes id token) :=
  .bind w.verifyScanKeyBefore_indexes fun _ => .bind (.cmd trivial) fun pages =>
    .bind (foldPages_indexes (fun _ _ => .pure _) pages _ _) fun _ =>
      .bind w.verifyScanComplete_indexes fun _ => .pure _

theorem drainMember_indexes {part partitions : Nat} {acc : Finset String × List String}
    {m : String} :
    (w.drainMember id.skh token part partitions acc m).Issues (Cmd.Indexes id token) :=
  .ite (.pure _) (.ite (.pure _)
    (.ite (.bind w.fanoutMembers_indexes fun _ => .pure _) (.pure _)))

theorem diffPartition_indexes {oldVer newVer : String}
    {oldCard newCard partitions part : Nat} :
    (w.diffPartition id oldVer newVer token oldCard newCard partitions part).Issues
      (Cmd.Indexes id token) :=
  .bind w.scanPartition_indexes fun _ => .bind w.verifyScanKeyBefore_indexes fun _ =>
    .bind (.cmd trivial) fun pages =>
      .bind (foldPages_indexes (fun acc page => .fold (fun _ _ => w.drainMember_indexes) page acc)
        pages _ _) fun _ =>
        .bind w.verifyScanComplete_indexes fun _ =>
          .bind (.when w.fanoutMembers_indexes) fun _ => .bind (.cmd trivial) fun _ =>
            .bind (.forEach (fun _ => w.fanoutMembers_indexes) _) fun _ =>
              .bind (.cmd rfl) fun _ => .bind renewNow_indexes fun _ => .pure _

theorem applyStreamedDiff_indexes {oldVer : Option String} {newVer : String}
    {resume oldCard newCard : Nat} :
    (w.applyStreamedDiff id oldVer newVer token resume oldCard newCard).Issues
      (Cmd.Indexes id token) := by
  refine .ite w.fanoutScan_indexes ?_
  cases oldVer with
  | none => exact .throw _
  | some oldVer =>
    refine .ite (.throw _) ?_
    refine .bind (.fold (fun _ _ => .bind w.scanPartition_indexes fun _ => .pure _) _ _) fun _ => ?_
    refine .bind (.fold (fun _ _ => .bind w.diffPartition_indexes fun _ => .pure _) _ _) fun _ => ?_
    exact .ite (.throw _) (.pure _)

theorem clearReverseToken_indexes :
    (w.clearReverseToken id.skh token).Issues (Cmd.Indexes id token) :=
  .bind (.cmd trivial) fun _ => .forEach (fun _ => .bind renewNow_indexes fun _ =>
    .forEach (fun _ => .forEach (fun _ => .cmd ⟨rfl, rfl⟩) _) _) _

theorem reindexReload_indexes {oldVer : Option String} {newVer : String} {reconcile : Bool}
    {cursor oldCard newCard : Nat} :
    (w.reindexReload id oldVer newVer reconcile token cursor oldCard newCard).Issues
      (Cmd.Indexes id token) :=
  .ite (.bind w.clearReverseToken_indexes fun _ => w.fanoutScan_indexes)
    (.when w.applyStreamedDiff_indexes)

theorem removeFanout_indexes {state : ListSyncState} :
    (w.removeFanout id state token).Issues (Cmd.Indexes id token) :=
  .bind keyMissing_indexes fun _ => .ite w.clearReverseToken_indexes
    (.bind (.cmd trivial) fun _ => w.fanoutScan_indexes)

/-! ## Applying a file -/

theorem fwdWrite_local {ver : String} {c : FileChange} : (fwdWrite id ver c).OfTask id target tok := by
  unfold fwdWrite
  split <;> rfl

theorem loadBatch_local {ver : String} {cs : List FileChange} {first : Bool} :
    ∀ wr ∈ loadBatch id ver cs first, wr.OfTask id target tok := by
  intro wr hwr
  rcases List.mem_append.mp hwr with h | h
  · obtain ⟨c, _, rfl⟩ := List.mem_map.mp h
    exact fwdWrite_local
  · split at h
    · obtain rfl := List.mem_singleton.mp h
      rfl
    · simp at h

/-- The token of a delta; a load writes no member set. -/
def FileApplyMode.Allows (tok : Option Nat) : FileApplyMode → Prop
  | .delta token => tok = some token
  | .load => True

theorem memberWrite_local {add : Bool} {m : String} :
    (memberWrite id.skh token add m).OfTask id target (some token) := by
  cases add <;> exact ⟨rfl, rfl⟩

theorem applyFileBatch_issues {ver : String} {mode : FileApplyMode} {cs : List FileChange}
    {checkpoint : Nat} {first : Bool} (hmode : FileApplyMode.Allows tok mode) :
    (w.applyFileBatch id ver mode cs checkpoint first).Issues (Cmd.OfTask id target tok) := by
  cases mode with
  | delta token =>
    obtain rfl : tok = some token := hmode
    refine .bind (.forEach (fun c => ?_) _) fun _ => .bind (.cmd trivial) fun _ => hset_issues rfl
    exact .ite (.bind (write_issues memberWrite_local) fun _ => write_issues fwdWrite_local)
      (write_issues fwdWrite_local)
  | load =>
    exact .bind (.cmd loadBatch_local) fun _ => .bind (.cmd trivial) fun _ => hset_issues rfl

/-- What a stream sends beside its batches is the download and the checks
of the claim. -/
theorem applyFileStream_sends {P : Cmd → Prop} {ver url : String} {start size : Nat}
    {mode : FileApplyMode} (hheld : P .held) (hfetch : P (.fetch url start size))
    (hbatch : ∀ cs checkpoint first, (w.applyFileBatch id ver mode cs checkpoint first).Issues P) :
    (w.applyFileStream id ver url start size mode).Issues P := by
  have hensure : ensureHeld.Issues P := .bind (.cmd hheld) fun _ => .ite (.pure _) (.throw _)
  have hline : ∀ st line, (w.streamLine id ver mode st line).Issues P :=
    fun _ _ => .ite (.bind (hbatch _ _ _) fun _ => .pure _) (.pure _)
  have hchunk : ∀ st chunk, (w.streamChunk id ver mode st chunk).Issues P := by
    intro st chunk
    refine .bind hensure fun _ => ?_
    cases st.decoder.push chunk with
    | error e => exact .throw _
    | ok res => exact .fold hline _ _
  refine .bind (.cmd hfetch) fun body => .bind (.fold hchunk _ _) fun st => ?_
  cases body.fault with
  | some e => exact .bind hensure fun _ => .throw _
  | none => exact .bind (.when (hbatch _ _ _)) fun _ => .pure _

theorem applyFileStream_issues {ver url : String} {start size : Nat} {mode : FileApplyMode}
    (hmode : FileApplyMode.Allows tok mode) :
    (w.applyFileStream id ver url start size mode).Issues (Cmd.OfTask id target tok) :=
  w.applyFileStream_sends trivial trivial fun _ _ _ => w.applyFileBatch_issues hmode

theorem ensureCurrentVersionPersisted_issues {state : ListSyncState} :
    (ensureCurrentVersionPersisted id state).Issues (Cmd.OfTask id target tok) :=
  .ite (.pure _) (.bind (.cmd trivial) fun _ => .when (write_issues rfl))

/-! ## Reload and removal -/

theorem startReload_issues {state : ListSyncState} {newVer : String} :
    (w.startReload id state newVer).Issues (Cmd.OfTask id target tok) :=
  .bind keyMissing_issues fun _ => .bind keyMissing_issues fun _ =>
    .bind (write_issues rfl) fun _ =>
      .bind (.when (.bind (write_issues rfl) fun _ => hset_issues rfl)) fun _ =>
        .bind (.when (.bind (write_issues rfl) fun _ =>
          .bind (hset_issues rfl) fun _ => write_issues rfl)) fun _ => .pure _

theorem loadReload_issues {md : TaskMetadata} {newVer : String} {start : Nat} :
    (w.loadReload id md newVer start).Issues (Cmd.OfTask id target tok) :=
  .ite (.bind (w.applyFileStream_issues trivial) fun _ =>
      .ite (.throw _) (.bind (hset_issues rfl) fun _ => .pure _))
    (.bind (hset_issues rfl) fun _ => .pure _)

/-- The committed size is the checkpoint, and not the task's. -/
theorem commitReload_issues {newVer : String} {oldVer : Option String} {md : TaskMetadata}
    {checkpoint : Nat} : (w.commitReload id newVer oldVer { md with size := checkpoint }).Issues
      (Cmd.OfTask id (some md) tok) := by
  refine .bind (.cmd trivial) fun _ => .bind (write_issues ⟨rfl, .inr ⟨_, _, _, rfl, rfl⟩⟩) fun _ =>
    .bind (write_issues rfl) fun _ => .bind (write_issues rfl) fun _ =>
      .bind (.when (write_issues rfl)) fun _ => .bind (write_issues rfl) fun _ => ?_
  cases oldVer with
  | none => exact .pure _
  | some old => exact .when (write_issues rfl)

theorem publishReload_issues {state : ListSyncState} {md : TaskMetadata} {newVer : String}
    {reconcile : Bool} {loadingSize cursor : Nat} :
    (w.publishReload id state md newVer reconcile token loadingSize cursor).Issues
      (Cmd.OfTask id (some md) (some token)) :=
  .bind scardOpt_issues fun _ => .bind (.cmd trivial) fun _ => .bind (.cmd trivial) fun _ =>
    .ite (.throw _)
      (.bind (.when (.bind (hset_issues rfl) fun _ => write_issues rfl)) fun _ =>
        .bind (w.reindexReload_indexes.mono Cmd.Indexes.ofTask) fun _ =>
          .bind renewNow_issues fun _ => w.commitReload_issues)

theorem removeFanout_issues {state : ListSyncState} :
    (w.removeFanout id state token).Issues (Cmd.OfTask id target (some token)) :=
  w.removeFanout_indexes.mono Cmd.Indexes.ofTask

theorem markForwardOnly_issues : (w.markForwardOnly id).Issues (Cmd.OfTask id target tok) :=
  .ite (.pure _) (.bind (write_issues rfl) fun _ => hset_issues rfl)

/-- Planning reads, and may make the committed set persistent. -/
theorem planWork_issues {stateExists : Bool} {state : ListSyncState} {task : TaskMetadata} :
    (w.planWork id stateExists state task).Issues (Cmd.OfTask id target tok) := by
  refine .bind (.ite (.cmd trivial) (.pure _)) fun fwdExists => ?_
  cases w.planAction stateExists state task fwdExists with
  | error e => exact .throw _
  | ok plan =>
    cases plan with
    | none => exact .bind ensureCurrentVersionPersisted_issues fun _ => .pure _
    | some plan => exact .pure _

/-! ## Whole tasks -/

variable {origin : String → List UInt8} {db₀ db : Db}

variable {md : TaskMetadata}

theorem applyDelta_follows {state : ListSyncState} :
    (w.applyDelta id state md).Follows (taskProtocol id target) (fun _ => True) tok := by
  refine .ite (.throw _) (.bind (follows_of_issues ensureCurrentVersionPersisted_issues) ?_)
  exact fun _ _ _ => follows_alloc fun t =>
    .bind (w.applyFileStream_issues rfl) fun _ => .ite (.throw _) (.pure _)

theorem reconcileCommittedForward_follows {state : ListSyncState} :
    (w.reconcileCommittedForward id state md).Follows (taskProtocol id target) (fun _ => True) tok := by
  refine .ite (.pure trivial) (.bind (follows_of_issues (.cmd trivial)) fun card _ _ => ?_)
  refine .ite (.pure trivial) ?_
  refine .bind (follows_of_issues ensureCurrentVersionPersisted_issues) fun _ _ _ => ?_
  refine .bind (follows_of_issues (hset_issues rfl)) fun _ _ _ => ?_
  refine .bind (follows_of_issues (write_issues rfl)) fun _ _ _ => ?_
  exact follows_alloc fun t => .bind (w.clearReverseToken_indexes.mono Cmd.Indexes.ofTask) fun _ =>
    .bind (w.fanoutScan_indexes.mono Cmd.Indexes.ofTask) fun _ => .bind renewNow_issues fun _ =>
      .bind (write_issues rfl) fun _ => .pure _

theorem applyFullReload_follows {state : ListSyncState} :
    (w.applyFullReload id state md).Follows (taskProtocol id (some md)) (fun _ => True) tok := by
  refine .bind w.reconcileCommittedForward_follows fun _ _ _ => .ite (.pure trivial) ?_
  refine .bind (follows_of_issues w.startReload_issues) fun r _ _ => ?_
  obtain ⟨reconcile, resume⟩ := r
  refine follows_alloc fun t => ?_
  cases (if resume then state.diffPartition else none) with
  | some partition => exact w.publishReload_issues
  | none => exact .bind w.loadReload_issues fun _ => w.publishReload_issues

/-- The file an action may commit. -/
def WorkerAction.commits (md : TaskMetadata) : WorkerAction → Option TaskMetadata
  | .fullReload => some md
  | .delta | .remove => none

/-- A load, from the index-mode marker on. -/
theorem runPlanned_follows {state : ListSyncState} {action : WorkerAction}
    (h : action ≠ .remove) : (w.runPlanned id state action md).Follows
      (taskProtocol id (action.commits md)) (fun _ => True) tok := by
  refine .bind (follows_of_issues w.markForwardOnly_issues) fun _ _ _ => ?_
  cases action with
  | delta => exact .bind w.applyDelta_follows fun _ _ _ => .pure trivial
  | fullReload => exact .bind w.applyFullReload_follows fun _ _ _ => .pure trivial
  | remove => exact absurd rfl h

theorem keeps_markForwardOnly :
    Keeps (redis origin) (Local id db₀ none) (w.markForwardOnly id) := by
  have h : (w.markForwardOnly id).Issues (Cmd.OfTask id none none) :=
    w.markForwardOnly_issues
  exact Local.keeps (follows_of_issues h)

theorem keeps_planWork {stateExists : Bool} {state : ListSyncState} {task : TaskMetadata} :
    Keeps (redis origin) (Local id db₀ none) (w.planWork id stateExists state task) := by
  have h : (w.planWork id stateExists state task).Issues (Cmd.OfTask id none none) :=
    w.planWork_issues
  exact Local.keeps (follows_of_issues h)

/-- The final pipeline of a removal, under the token the dictionary has. -/
theorem wp_removeCleanup {state : ListSyncState}
    (h : Local id db₀ ((db.dict id.skh).token id.list) db) :
    Wp (redis origin) (removeCleanup id state ((db.dict id.skh).token id.list))
      (fun _ => Tidy id db₀) (Tidy id db₀) db := by
  have hfirst : Keeps (redis origin)
      (fun db' => Local id db₀ ((db.dict id.skh).token id.list) db' ∧
        (db'.dict id.skh).token id.list = (db.dict id.skh).token id.list)
      (Prog.forEach (fun version => write (.delFwd id version)) state.loadingVersion.toList) := by
    refine .forEach (fun version => .cmd ?_) _
    rintro db₁ r db₂ ⟨hl, ht⟩ rfl
    exact ⟨hl.write rfl, ht⟩
  refine Wp.seq ((hfirst db ⟨h, rfl⟩).mono (fun _ _ h => h) fun _ h => h.1.tidy) ?_
  rintro _ db₁ ⟨hl, ht⟩
  refine Wp.cmdBind hl.tidy fun _ db₂ hs => ?_
  obtain rfl : db₂ = (Write.delFwd id state.version).apply db₁ := hs
  have hl₂ : Local id db₀ ((db.dict id.skh).token id.list)
      ((Write.delFwd id state.version).apply db₁) := hl.write rfl
  refine Wp.cmdBind hl₂.tidy fun _ db₃ hs => ?_
  obtain rfl : db₃ = (Write.delMeta id).apply ((Write.delFwd id state.version).apply db₁) := hs
  have hl₃ : Local id db₀ ((db.dict id.skh).token id.list)
      ((Write.delMeta id).apply ((Write.delFwd id state.version).apply db₁)) := hl₂.write rfl
  refine Wp.cmdBind hl₃.tidy fun _ db₄ hs => ?_
  have ht₃ : (((Write.delMeta id).apply ((Write.delFwd id state.version).apply db₁)).dict
      id.skh).token id.list = (db.dict id.skh).token id.list := ht
  have htidy : Tidy id db₀ db₄ := by
    obtain rfl : db₄ = _ := hs
    rw [← ht₃] at hl₃ ⊢
    exact hl₃.hdelDict
  -- What is left are two writes of the list's own keys.
  have hlast : ∀ wr : Write, wr.LocalTo id none → ∀ a b : Db, Tidy id db₀ a →
      b = wr.apply a → Tidy id db₀ b := by
    rintro wr hwr a b ⟨hok, hframe⟩ rfl
    exact ⟨ok_write hwr hok (by simp), hframe.trans (frame_write hwr (by simp))⟩
  have hkeeps : Keeps (redis origin) (Tidy id db₀)
      (do write (.sremAll id); write (.delState id)) :=
    .bind (.cmd fun a r b ha hab => hlast (.sremAll id) rfl a b ha hab) fun _ =>
      .cmd fun a r b ha hab => hlast (.delState id) rfl a b ha hab
  exact hkeeps db₄ htidy

/-- A removal up to its final pipeline: the fan-out and its marker. Returns
the list's token. -/
def clearIndex (id : ListId) (state : ListSyncState) : Redis (Option Nat) := do
  let h ← hgetState id
  let fanoutComplete := h.removalFanoutComplete
  let token ← getToken id
  if w.config.enableReverseIndex && !fanoutComplete && token.isNone && state.version ≠ "" then
    .throw .missingDictionaryToken
  else do
    Prog.when (w.config.enableReverseIndex && !fanoutComplete)
      (Prog.forEach (w.removeFanout id state) token.toList)
    Prog.when (!fanoutComplete) (write (.hsetState id [.removalFanoutComplete]))
    pure token

theorem applyRemove_eq {state : ListSyncState} : w.applyRemove id state =
    (w.clearIndex id state).bind fun token => removeCleanup id state token := by
  refine congrArg (Prog.call _) (funext fun h => congrArg (Prog.call _) (funext fun token => ?_))
  show (if _ then _ else _) = Prog.bind (if _ then _ else _) _
  split
  · rfl
  · change Prog.bind _ _ = Prog.bind (Prog.bind _ _) _
    rw [Prog.bind_assoc]
    refine congrArg (Prog.bind _) (funext fun _ => ?_)
    change Prog.bind _ _ = Prog.bind (Prog.bind _ _) _
    rw [Prog.bind_assoc]
    rfl

/-- The fan-out and the marker leave the dictionary alone. -/
theorem local_clearIndex {state : ListSyncState} (hok : db.Ok) :
    Wp (redis origin) (w.clearIndex id state)
      (fun token t => token = (db.dict id.skh).token id.list ∧ Local id db token t ∧
        (t.dict id.skh).token id.list = token)
      (Local id db none) db := by
  have hstart := Local.refl hok id
  refine Wp.cmdBind hstart fun h db₁ hs => ?_
  obtain ⟨_, rfl⟩ := hs
  refine Wp.cmdBind hstart fun token db₂ hs => ?_
  obtain ⟨rfl, rfl⟩ := hs
  have hl : Local id db₂ ((db₂.dict id.skh).token id.list) db₂ :=
    ⟨hok, Frame.refl _ _ _, rfl, fun t ht => ht⟩
  refine Wp.ite (fun _ => .throw hstart) fun _ => ?_
  have hkeep : ∀ {p : Redis Unit}, p.Issues (Cmd.OfTask id none ((db₂.dict id.skh).token id.list)) →
      Keeps (redis origin) (fun db' => Local id db₂ ((db₂.dict id.skh).token id.list) db' ∧
        (db'.dict id.skh).token id.list = (db₂.dict id.skh).token id.list) p := by
    intro p hp
    refine hp.keeps fun c hc => task_keeps (fun hw h => ⟨h.1.write hw.localTo, ?_⟩) hc
    exact (token_write hw.localTo _ _).trans h.2
  have hfan : ∀ t ∈ ((db₂.dict id.skh).token id.list).toList,
      (w.removeFanout id state t).Issues
        (Cmd.OfTask id none ((db₂.dict id.skh).token id.list)) := by
    intro t ht
    rw [Option.mem_toList.mp ht]
    exact w.removeFanout_issues
  refine Wp.seq ((hkeep ?_ db₂ ⟨hl, rfl⟩).mono (fun _ _ h => h) fun _ h => h.1.forget) ?_
  · refine .when ?_
    cases htok : (db₂.dict id.skh).token id.list with
    | none => exact .pure _
    | some t =>
      rw [htok] at hfan
      exact .bind (hfan t (by simp)) fun _ => .pure _
  · rintro _ db₃ h₃
    have hmark : Keeps (redis origin)
        (fun db' => Local id db₂ ((db₂.dict id.skh).token id.list) db' ∧
          (db'.dict id.skh).token id.list = (db₂.dict id.skh).token id.list)
        (write (.hsetState id [.removalFanoutComplete])) := by
      refine .cmd fun a r b ha hstep => ?_
      obtain rfl : b = (Write.hsetState id [.removalFanoutComplete]).apply a := hstep
      exact ⟨ha.1.write rfl, ha.2⟩
    refine Wp.seq ((hmark.when db₃ h₃).mono (fun _ _ h => h) fun _ h => h.1.forget) ?_
    rintro _ db₄ ⟨h₄, ht₄⟩
    exact .pure h₄.forget ⟨rfl, h₄, ht₄⟩

/-- Up to the final pipeline, the marker is all a removal sends beside the
commands of any task. -/
theorem clearIndex_issues {state : ListSyncState} : (w.clearIndex id state).Issues fun c =>
    (∃ tok, c.OfTask id none tok) ∨ c = .write (.hsetState id [.removalFanoutComplete]) := by
  refine .bind (.cmd (.inl ⟨none, trivial⟩)) fun _ => .bind (.cmd (.inl ⟨none, trivial⟩)) fun _ => ?_
  refine .ite (.throw _) (.bind (.when (.forEach (fun t => ?_) _)) fun _ => ?_)
  · have hfanout : (w.removeFanout id state t).Issues (Cmd.OfTask id none (some t)) :=
      w.removeFanout_issues
    exact hfanout.mono fun _ hc => .inl ⟨some t, hc⟩
  · exact .bind (.when (.cmd (.inr rfl))) fun _ => .pure _

theorem keeps_applyRemove {state : ListSyncState} (hok : db.Ok) :
    Wp (redis origin) (w.applyRemove id state) (fun _ => Tidy id db) (Tidy id db) db := by
  rw [applyRemove_eq]
  refine Wp.seq ((w.local_clearIndex hok).mono (fun _ _ h => h) fun _ h => h.tidy) ?_
  rintro token t ⟨_, hl, rfl⟩
  exact wp_removeCleanup hl

/-- **A task keeps to its list**: however far it gets, the dictionaries
stay consistent and nothing of another list or company has changed. -/
theorem runClaimed_tidy (hok : db.Ok) {db' : Db} {o : Outcome WorkerError WorkerRunOutcome}
    (he : Exec (redis origin) (w.runClaimed id) db db' o) : Tidy id db db' := by
  have hstart := Local.refl hok id
  have hplanned : ∀ (state : ListSyncState) (action : WorkerAction) (md : TaskMetadata) (a : Db),
      Local id db none a →
      Wp (redis origin) (w.runPlanned id state action md) (fun _ => Tidy id db) (Tidy id db) a := by
    intro state action md a ha
    by_cases haction : action = .remove
    · subst haction
      refine Wp.seq ((w.keeps_markForwardOnly a ha).mono (fun _ _ h => h) fun _ h => h.tidy) ?_
      intro _ db₁ h₁
      have htrans : ∀ db₂, Tidy id db₁ db₂ → Tidy id db db₂ := by
        rintro db₂ ⟨hok₂, hframe₂⟩
        rw [h₁.tokenOf] at hframe₂
        exact ⟨hok₂, h₁.frame.trans hframe₂⟩
      refine Wp.seq ((w.keeps_applyRemove h₁.ok).mono (fun _ _ h => htrans _ h)
        fun _ h => htrans _ h) ?_
      exact fun _ _ h => .pure h h
    · exact (Local.keeps (w.runPlanned_follows haction) a ha).mono (fun _ _ h => h.tidy)
        fun _ h => h.tidy
  have hrun : Wp (redis origin) (w.runClaimed id) (fun _ => Tidy id db) (Tidy id db) db := by
    refine Wp.cmdBind hstart.tidy fun metaFields db₁ hs => ?_
    obtain ⟨_, rfl⟩ := hs
    refine Wp.cmdBind hstart.tidy fun stateFields db₂ hs => ?_
    obtain ⟨_, rfl⟩ := hs
    cases taskMetadata metaFields stateFields with
    | error e => exact .throw hstart.tidy
    | ok task =>
      cases task with
      | none => exact .pure hstart.tidy hstart.tidy
      | some md =>
        simp only
        cases md.op with
        | remove => exact hplanned _ _ _ _ hstart
        | load =>
          refine Wp.seq ((w.keeps_planWork db₂ hstart).mono (fun _ _ h => h) fun _ h => h.tidy) ?_
          intro plan db₃ h₃
          cases plan with
          | none => exact .pure h₃.tidy h₃.tidy
          | some plan => exact hplanned _ _ _ _ h₃
  exact hrun.always (fun _ _ h => h) he

/-- An execution, however far it got, keeps the dictionary invariant. -/
theorem runOnce_ok (hok : db.Ok) {db' : Db} {o : Outcome WorkerError WorkerRunOutcome}
    (he : Exec (redis origin) w.runOnce db db' o) : db'.Ok := by
  have hwp : Wp (redis origin) w.runOnce (fun _ => Db.Ok) Db.Ok db := by
    refine Wp.cmdBind hok fun popped t hstep => ?_
    obtain ⟨rest, _, rfl⟩ := hstep
    have hpopped : ({ db with queue := rest } : Db).Ok := hok.congr rfl rfl
    cases popped with
    | none => exact .pure hpopped hpopped
    | some id =>
      refine Wp.cmdBind hpopped ?_
      rintro claimed t rfl
      refine .ite ?_ fun _ => .pure hpopped hpopped
      intro _
      have hclaimed : Wp (redis origin) (w.runClaimed id) (fun _ => Db.Ok) Db.Ok
          { db with queue := rest } := fun _ _ he =>
        ⟨fun _ _ => (w.runClaimed_tidy hpopped he).1, fun _ => (w.runClaimed_tidy hpopped he).1⟩
      refine Wp.seq hclaimed fun outcome t₁ h₁ => ?_
      refine Wp.cmdBind h₁ ?_
      rintro r t₂ rfl
      exact .pure h₁ h₁
  exact hwp.always (fun _ _ h => h) he

end IdListSyncWorker

end ForwardProxy.IdList
