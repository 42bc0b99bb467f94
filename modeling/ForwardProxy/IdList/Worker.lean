/-
ForwardProxy.IdList.Worker — the id-list sync worker (`worker/`), as
programs over the Redis commands.

Each definition is one function of the source, under its name, with the
commands in the source's order. Metrics and log lines are left out, and
so are the values of the TTLs: a key has one or not. A connection error
is a run that stops, so no command returns an error here.

A Rust loop over scan pages runs its body once per page of the reply and
renews the claim after every 512th page (`foldPages`).
-/
import ForwardProxy.IdList.Redis
import ForwardProxy.IdList.Parser
import ForwardProxy.IdList.Planning

namespace ForwardProxy.IdList

open Effect

/-! ## Configuration (`core.rs`) -/

/-- The sizes are positive: `from_env` rejects a zero. -/
structure IdListWorkerConfig where
  enableReverseIndex : Bool
  pipelineBatchSize : Nat
  scanCount : Nat
  diffPartitionMaxMembers : Nat
  pipelineBatchSize_pos : 0 < pipelineBatchSize
  scanCount_pos : 0 < scanCount
  diffPartitionMaxMembers_pos : 0 < diffPartitionMaxMembers

structure IdListSyncWorker where
  config : IdListWorkerConfig
  /-- The first eight bytes of a member's SHA-256. -/
  digest : String → Nat
  /-- The rendered forward key, which only error texts show. -/
  fwdKey : ListId → String → String

def lockRenewalScanPages : Nat := 512

/-- `slice::chunks`: consecutive pieces of `n` elements, the last one
shorter. -/
def chunksGo {α : Type} (n : Nat) : List α → List α → List (List α)
  | acc, [] => if acc.isEmpty then [] else [acc]
  | acc, x :: xs =>
    if n ≤ (acc ++ [x]).length then (acc ++ [x]) :: chunksGo n [] xs
    else chunksGo n (acc ++ [x]) xs

def chunks {α : Type} (n : Nat) (xs : List α) : List (List α) := chunksGo n [] xs

/-! ## The claim (`run.rs`) -/

def ensureHeld : Redis Unit := do
  let ok ← held
  if ok then pure () else .throw .lockLost

def renewNow : Redis Unit := do
  ensureHeld
  let ok ← renew
  if ok then pure () else .throw .lockLost

/-- The renewal after page number `n + 1` of a scan. -/
def renewEvery (n : Nat) : Redis Unit :=
  Prog.when ((n + 1) % lockRenewalScanPages = 0) renewNow

/-- The cursor loop of a scan: `body` on each page. -/
def foldPages {σ : Type} (body : σ → List String → Redis σ) :
    σ → Nat → List (List String) → Redis σ
  | acc, _, [] => pure acc
  | acc, n, page :: pages => do
    let acc' ← body acc page
    renewEvery n
    foldPages body acc' (n + 1) pages

namespace IdListSyncWorker

variable (w : IdListSyncWorker)

/-! ## Scans and fan-out (`streamed_diff.rs`) -/

def verifyScanKeyBefore (id : ListId) (ver : String) (expectedCard : Nat) : Redis Unit :=
  if 0 < expectedCard then do
    let ok ← keyExists id ver
    if ok then pure ()
    else .throw (.scanVerification (w.fwdKey id ver ++ " disappeared before scan"))
  else pure ()

def verifyScanComplete (id : ListId) (ver : String) (expectedCard scanned : Nat) :
    Redis Unit :=
  let failed : WorkerError := .scanVerification
    (w.fwdKey id ver ++ s!": scanned {scanned}, expected at least {expectedCard}")
  if scanned < expectedCard then .throw failed
  else if 0 < expectedCard then do
    let ok ← keyExists id ver
    if ok then pure () else .throw failed
  else pure ()

/-- The reverse-index command of one member. -/
def memberWrite (skh : String) (token : Nat) (add : Bool) (m : String) : Write :=
  if add then .saddMember skh m token else .sremMember skh m token

def fanoutMembers (skh : String) (members : List String) (token : Nat) (add : Bool) :
    Redis Unit :=
  Prog.forEach (fun batch => Prog.forEach (fun m => write (memberWrite skh token add m)) batch)
    (chunks w.config.pipelineBatchSize members)

def fanoutScan (id : ListId) (ver : String) (token : Nat) (add : Bool) (expectedCard : Nat) :
    Redis Unit := do
  w.verifyScanKeyBefore id ver expectedCard
  let pages ← sscan id ver
  foldPages (fun _ page => w.fanoutMembers id.skh page token add) () 0 pages
  w.verifyScanComplete id ver expectedCard pages.flatten.length

def scanPartition (id : ListId) (ver : String) (expectedCard part partitions : Nat) :
    Redis (Finset String) := do
  w.verifyScanKeyBefore id ver expectedCard
  let pages ← sscan id ver
  let members ← foldPages
    (fun acc page => pure (acc ∪
      (page.filter fun m => partitionFor w.digest m partitions = part).toFinset)) ∅ 0 pages
  w.verifyScanComplete id ver expectedCard pages.flatten.length
  pure members

/-- One member of a page of the new set, against `existing` (the old
members not yet met) and the additions not yet sent. -/
def drainMember (skh : String) (token part partitions : Nat)
    (acc : Finset String × List String) (m : String) :
    Redis (Finset String × List String) :=
  if partitionFor w.digest m partitions ≠ part then pure acc
  else if m ∈ acc.1 then pure (acc.1.erase m, acc.2)
  else if w.config.scanCount ≤ (acc.2 ++ [m]).length then do
    w.fanoutMembers skh (acc.2 ++ [m]) token true
    pure (acc.1, [])
  else pure (acc.1, acc.2 ++ [m])

/-- The additions left after the last page. -/
def flushAdditions (skh : String) (token : Nat) (additions : List String) : Redis Unit :=
  Prog.when (!additions.isEmpty) (w.fanoutMembers skh additions token true)

/-- The body of the loop over the partitions still to be applied; returns
the number of old members in the partition. -/
def diffPartition (id : ListId) (oldVer newVer : String)
    (token oldCard newCard partitions part : Nat) : Redis Nat := do
  let existing ← w.scanPartition id oldVer oldCard part partitions
  w.verifyScanKeyBefore id newVer newCard
  let pages ← sscan id newVer
  let acc ← foldPages
    (fun acc page => Prog.fold (w.drainMember id.skh token part partitions) acc page)
    (existing, []) 0 pages
  w.verifyScanComplete id newVer newCard pages.flatten.length
  w.flushAdditions id.skh token acc.2
  let removals ← iterate acc.1
  Prog.forEach (fun chunk => w.fanoutMembers id.skh chunk token false)
    (chunks w.config.scanCount removals)
  write (.hsetState id [.diffPartition (part + 1)])
  renewNow
  pure existing.card

/-- `max(old_card, new_card, 1).div_ceil(diff_partition_max_members)`. -/
def partitionCount (oldCard newCard : Nat) : Nat :=
  (max (max oldCard newCard) 1 + w.config.diffPartitionMaxMembers - 1) /
    w.config.diffPartitionMaxMembers

def applyStreamedDiff (id : ListId) (oldVer : Option String) (newVer : String)
    (token resumePartition oldCard newCard : Nat) : Redis Unit :=
  if oldCard = 0 then w.fanoutScan id newVer token true newCard
  else
    match oldVer with
    | none => .throw (.scanVerification "old cardinality is non-zero without a key")
    | some oldVer =>
      let partitions := w.partitionCount oldCard newCard
      if partitions < resumePartition then
        .throw (.scanVerification
          s!"resume partition {resumePartition} exceeds partition count {partitions}")
      else do
        -- Completed partitions are scanned again, without their fan-out.
        let verified ← Prog.fold (fun total part => do
          let members ← w.scanPartition id oldVer oldCard part partitions
          pure (total + members.card)) 0 (List.range resumePartition)
        let total ← Prog.fold (fun total part => do
          let n ← w.diffPartition id oldVer newVer token oldCard newCard partitions part
          pure (total + n)) verified
          (List.range' resumePartition (partitions - resumePartition))
        if total ≠ oldCard then
          .throw (.scanVerification s!"old distinct total {total} != SCARD {oldCard}")
        else pure ()

def clearReverseToken (skh : String) (token : Nat) : Redis Unit := do
  let pages ← scanMembers skh
  Prog.forEach (fun page => do
    renewNow
    Prog.forEach (fun batch =>
      Prog.forEach (fun m => write (.sremMember skh m token)) batch)
      (chunks w.config.pipelineBatchSize page)) pages

/-! ## Applying a file (`delta.rs`) -/

/-- `FileApplyMode`: a delta writes the committed set and the reverse
index, a load writes the pending set. -/
inductive FileApplyMode where
  | delta (token : Nat)
  | load
  deriving DecidableEq

/-- The forward-set command of one change. -/
def fwdWrite (id : ListId) (ver : String) (c : FileChange) : Write :=
  if c.add then .saddFwd id ver c.member else .sremFwd id ver c.member

/-- The two commands of one change in a delta, adjacent and in source
order. -/
def deltaChange (id : ListId) (ver : String) (token : Nat) (c : FileChange) : Redis Unit :=
  if w.config.enableReverseIndex then do
    write (memberWrite id.skh token c.add c.member)
    write (fwdWrite id ver c)
  else write (fwdWrite id ver c)

/-- The MULTI/EXEC of a load batch: the TTL is installed with the first
SADD. -/
def loadBatch (id : ListId) (ver : String) (cs : List FileChange) (firstLoadBatch : Bool) :
    List Write :=
  cs.map (fwdWrite id ver) ++
    if firstLoadBatch && cs.any (·.add) then [.expireFwd id ver] else []

def applyFileBatch (id : ListId) (ver : String) (mode : FileApplyMode)
    (cs : List FileChange) (checkpoint : Nat) (firstLoadBatch : Bool) : Redis Unit :=
  match mode with
  | .delta token => do
    Prog.forEach (w.deltaChange id ver token) cs
    let cardinality ← scard id ver
    write (.hsetState id [.size checkpoint, .cardinality cardinality])
  | .load => do
    multi (loadBatch id ver cs firstLoadBatch)
    let cardinality ← scard id ver
    write (.hsetState id [.loadingSize checkpoint, .loadingCardinality cardinality])

/-- The local variables of the download loop. -/
structure StreamState where
  decoder : CompleteLineDecoder
  batch : List FileChange
  batchCheckpoint : Nat
  appliedLines : Nat
  firstLoadBatch : Bool

/-- One decoded line: extend the batch, and send it when it is full. -/
def streamLine (id : ListId) (ver : String) (mode : FileApplyMode) (st : StreamState)
    (line : DecodedLine) : Redis StreamState :=
  let batch := st.batch ++ line.change.toList
  let st' : StreamState :=
    { st with
      batch := batch
      batchCheckpoint := line.endOffset
      appliedLines := st.appliedLines + line.change.toList.length }
  if w.config.pipelineBatchSize ≤ batch.length then do
    w.applyFileBatch id ver mode batch line.endOffset st.firstLoadBatch
    let created := decide (mode = .load) && batch.any (·.add)
    pure { st' with batch := [], firstLoadBatch := st.firstLoadBatch && !created }
  else pure st'

def streamChunk (id : ListId) (ver : String) (mode : FileApplyMode) (st : StreamState)
    (chunk : List UInt8) : Redis StreamState := do
  ensureHeld
  match st.decoder.push chunk with
  | .error e => .throw e
  | .ok (lines, decoder) => Prog.fold (w.streamLine id ver mode) { st with decoder } lines

structure StreamApplyResult where
  lines : Nat
  checkpoint : Nat
  partialTrailingLine : Bool

/-- The batch left after the last chunk. -/
def finishStream (id : ListId) (ver : String) (mode : FileApplyMode) (start : Nat)
    (st : StreamState) : Redis StreamApplyResult := do
  Prog.when (start < st.batchCheckpoint)
    (w.applyFileBatch id ver mode st.batch st.batchCheckpoint st.firstLoadBatch)
  pure ⟨st.appliedLines, st.batchCheckpoint, st.decoder.hasPartialLine⟩

def applyFileStream (id : ListId) (ver url : String) (start fileSize : Nat)
    (mode : FileApplyMode) : Redis StreamApplyResult := do
  let body ← downloadFile url start fileSize
  let st ← Prog.fold (w.streamChunk id ver mode) ⟨.new start, [], start, 0, true⟩ body.chunks
  match body.fault with
  | some e => do
    ensureHeld
    .throw e
  | none => w.finishStream id ver mode start st

/-- The error of a download that ended before the size of its task. -/
def shortDownload (what : String) (applied : StreamApplyResult) (size : Nat) : WorkerError :=
  .invalidFile (what ++ s!" ended at complete-line offset {applied.checkpoint}, before task size {size} (partial trailing line: {applied.partialTrailingLine})")

/-- `ensure_current_version_persisted`. -/
def ensureCurrentVersionPersisted (id : ListId) (state : ListSyncState) : Redis Unit :=
  if state.version = "" then pure ()
  else do
    let t ← ttl id state.version
    Prog.when (0 ≤ t) (write (.persistFwd id state.version))

def applyDelta (id : ListId) (state : ListSyncState) (md : TaskMetadata) : Redis Unit :=
  if md.fileId ≠ state.fileId then
    .throw (.invalidTask "delta file_id does not match state")
  else do
    ensureCurrentVersionPersisted id state
    let token ← getOrAllocateToken id
    let applied ← w.applyFileStream id state.version md.url state.size md.size (.delta token)
    if applied.checkpoint < md.size then .throw (shortDownload "download" applied md.size)
    else pure ()

/-! ## Full reload (`reload.rs`) -/

/-- Re-enabling indexing can repair the committed snapshot without a
download. -/
def reconcileCommittedForward (id : ListId) (state : ListSyncState) (md : TaskMetadata) :
    Redis Bool :=
  if !w.config.enableReverseIndex || !state.reverseIndexDisabled || state.version = "" ||
      state.fileId ≠ md.fileId || state.size ≠ md.size || state.loadingVersion.isSome
  then pure false
  else do
    let cardinality ← scard id state.version
    if state.cardinality ≠ some cardinality then pure false
    else do
      ensureCurrentVersionPersisted id state
      write (.hsetState id [.reconcileRequired])
      write (.delReady id.skh)
      let token ← getOrAllocateToken id
      w.clearReverseToken id.skh token
      w.fanoutScan id state.version token true cardinality
      renewNow
      write (.hdelState id [.reverseIndexDisabled, .reconcileRequired])
      pure true

def initializeLoad (id : ListId) (version : String) : Redis Unit := do
  write (.hsetState id [.loadingVersion version, .loadingSize 0])
  write (.hdelState id [.diffPartition, .loadingCardinality, .removalFanoutComplete])

def commitReload (id : ListId) (newVer : String) (oldVer : Option String)
    (md : TaskMetadata) : Redis Unit := do
  let cardinality ← scard id newVer
  write (.hsetState id [.version md.versionTag, .fileId md.fileId, .url md.url,
    .creationTime md.creationTime, .size md.size, .cardinality cardinality])
  write (.hdelState id [.loadingVersion, .loadingSize, .reconcileRequired, .diffPartition,
    .loadingCardinality, .removalFanoutComplete])
  write (.saddAll id)
  Prog.when w.config.enableReverseIndex (write (.hdelState id [.reverseIndexDisabled]))
  write (.persistFwd id newVer)
  match oldVer with
  | some old => Prog.when (old ≠ newVer) (write (.expireFwd id old))
  | none => pure ()

/-- The part of `apply_full_reload` up to the token allocation: decide
whether the reverse index must be rebuilt, register the list, and resume
or start the load. Returns `reconcile`, and whether the load resumes. -/
def startReload (id : ListId) (state : ListSyncState) (newVer : String) :
    Redis (Bool × Bool) := do
  let matchingLoad : Bool := state.loadingVersion = some newVer
  let oldMissing ← keyMissing
    (state.version ≠ "" && 0 < state.cardinality.getD state.size) id state.version
  let pendingMissing ← keyMissing
    (matchingLoad && 0 < state.loadingCardinality.getD (state.loadingSize.getD 0)) id newVer
  let reconcile := state.reconcileRequired ||
    (w.config.enableReverseIndex && state.reverseIndexDisabled) || oldMissing ||
    pendingMissing || (state.loadingVersion.isSome && !matchingLoad)
  let resume := matchingLoad && !pendingMissing
  write (.saddAll id)
  -- Persist before replacing any checkpoint.
  Prog.when reconcile do
    write (.delReady id.skh)
    write (.hsetState id [.reconcileRequired])
  Prog.when (!resume) do
    write (.delFwd id newVer)
    initializeLoad id newVer
  pure (reconcile, resume)

/-- The download phase: bring the pending set to the task's size, and mark
the diff as begun. Returns the checkpoint reached. -/
def loadReload (id : ListId) (md : TaskMetadata) (newVer : String) (loadingSize : Nat) :
    Redis Nat :=
  if loadingSize < md.size then do
    let applied ← w.applyFileStream id newVer md.url loadingSize md.size .load
    if applied.checkpoint < md.size then .throw (shortDownload "full download" applied md.size)
    else do
      write (.hsetState id [.diffPartition 0])
      pure applied.checkpoint
  else do
    write (.hsetState id [.diffPartition 0])
    pure loadingSize

/-- The reverse-index phase of a reload: rebuild it when the old forward set
cannot describe it, else diff. -/
def reindexReload (id : ListId) (oldVer : Option String) (newVer : String) (reconcile : Bool)
    (token diffPartition oldCard newCard : Nat) : Redis Unit :=
  if w.config.enableReverseIndex && reconcile then do
    w.clearReverseToken id.skh token
    w.fanoutScan id newVer token true newCard
  else Prog.when w.config.enableReverseIndex
    (w.applyStreamedDiff id oldVer newVer token diffPartition oldCard newCard)

/-- The publication phase: check the pending set against its recorded
cardinality, bring the reverse index to the new set, and commit. -/
def publishReload (id : ListId) (state : ListSyncState) (md : TaskMetadata) (newVer : String)
    (reconcile : Bool) (token loadingSize diffPartition : Nat) : Redis Unit := do
  -- A same-version reload means the old forward set was missing or corrupt.
  let oldVer := if state.version ≠ "" ∧ state.version ≠ newVer then some state.version else none
  let oldCard ← scardOpt id oldVer
  let newCard ← scard id newVer
  let h ← hgetState id
  if h.loadingCardinality.isSome && h.loadingCardinality ≠ some newCard then
    .throw (.scanVerification "pending forward set changed after download")
  else do
    let late := oldVer.isSome && 0 < state.cardinality.getD state.size && oldCard = 0
    Prog.when late do
      write (.hsetState id [.reconcileRequired])
      write (.delReady id.skh)
    w.reindexReload id oldVer newVer (reconcile || late) token diffPartition oldCard newCard
    renewNow
    w.commitReload id newVer oldVer { md with size := loadingSize }

def applyFullReload (id : ListId) (state : ListSyncState) (md : TaskMetadata) : Redis Unit := do
  let repaired ← w.reconcileCommittedForward id state md
  if repaired then pure ()
  else do
    let newVer := md.versionTag
    let (reconcile, resume) ← w.startReload id state newVer
    let loadingSize := if resume then state.loadingSize.getD 0 else 0
    let token ← getOrAllocateToken id
    match (if resume then state.diffPartition else none) with
    | some partition => w.publishReload id state md newVer reconcile token loadingSize partition
    | none => do
      let checkpoint ← w.loadReload id md newVer loadingSize
      w.publishReload id state md newVer reconcile token checkpoint 0

/-! ## Removal (`removal.rs`) -/

/-- The fan-out of a removal: by a scan of all member keys when the forward
set cannot be trusted, else over the forward set. -/
def removeFanout (id : ListId) (state : ListSyncState) (token : Nat) : Redis Unit := do
  let missing ← keyMissing (0 < state.cardinality.getD state.size) id state.version
  if missing || state.reverseIndexDisabled || state.version = "" ||
      state.loadingVersion.isSome || state.reconcileRequired
  then w.clearReverseToken id.skh token
  else do
    let card ← scard id state.version
    w.fanoutScan id state.version token false card

/-- The final pipeline: state is deleted last. -/
def removeCleanup (id : ListId) (state : ListSyncState) (token : Option Nat) : Redis Unit := do
  Prog.forEach (fun version => write (.delFwd id version)) state.loadingVersion.toList
  write (.delFwd id state.version)
  write (.delMeta id)
  write (.hdelDict id token)
  write (.sremAll id)
  write (.delState id)

def applyRemove (id : ListId) (state : ListSyncState) : Redis Unit := do
  let h ← hgetState id
  let fanoutComplete := h.removalFanoutComplete
  let token ← getToken id
  if w.config.enableReverseIndex && !fanoutComplete && token.isNone && state.version ≠ "" then
    .throw .missingDictionaryToken
  else do
    Prog.when (w.config.enableReverseIndex && !fanoutComplete)
      (Prog.forEach (w.removeFanout id state) token.toList)
    Prog.when (!fanoutComplete) (write (.hsetState id [.removalFanoutComplete]))
    removeCleanup id state token

/-! ## One task (`run.rs`) -/

inductive WorkerAction where
  | delta
  | fullReload
  | remove
  deriving DecidableEq, Repr

inductive WorkerRunOutcome where
  | idle
  | dropped
  | claimConflict
  | completed (action : WorkerAction)
  deriving DecidableEq, Repr

/-- `plan_work`, after the EXISTS: the action and its metadata, or `none`
when the task is already satisfied. -/
def planAction (stateExists : Bool) (state : ListSyncState) (md : TaskMetadata)
    (forwardExists : Bool) : Except WorkerError (Option (WorkerAction × TaskMetadata)) :=
  match planSyncWithReverseIndex (if stateExists then some state else none)
      md.asIdListMetadata forwardExists w.config.enableReverseIndex with
  | none => .ok none
  | some (.fullLoad, target) => .ok (some (.fullReload, .ofMetadata target))
  | some (.delta _, target) => .ok (some (.delta, .ofMetadata target))
  | some (.remove, _) => .error (.invalidTask "load task resolved to remove")

/-- The EXISTS of `plan_work`, sent only for a committed version. -/
def forwardExists (id : ListId) (stateExists : Bool) (state : ListSyncState) : Redis Bool :=
  if stateExists && state.version ≠ "" then keyExists id state.version else pure false

def planWork (id : ListId) (stateExists : Bool) (state : ListSyncState) (md : TaskMetadata) :
    Redis (Option (WorkerAction × TaskMetadata)) := do
  let forwardExists ← forwardExists id stateExists state
  match w.planAction stateExists state md forwardExists with
  | .error e => .throw e
  | .ok none => do
    ensureCurrentVersionPersisted id state
    pure none
  | .ok (some plan) => pure (some plan)

/-- What the task metadata and the state ask for. A missing metadata hash
beside a fan-out marker is a removal whose final pipeline was cut off;
without the marker the task is stale (`none`). -/
def taskMetadata (metaFields : TaskMetaHash) (stateFields : StateHash) :
    Except WorkerError (Option TaskMetadata) :=
  if metaFields.isEmpty && stateFields.removalFanoutComplete then
    .ok (some ⟨.remove, "", 0, "", 0⟩)
  else if metaFields.isEmpty then .ok none
  else (TaskMetadata.fromHash metaFields).map some

/-- Skipped reverse updates are recorded before any forward data changes. -/
def markForwardOnly (id : ListId) : Redis Unit :=
  if w.config.enableReverseIndex then pure ()
  else do
    write (.hsetDictDisabled id.skh)
    write (.hsetState id [.reverseIndexDisabled])

def runAction (id : ListId) (state : ListSyncState) (md : TaskMetadata) :
    WorkerAction → Redis Unit
  | .delta => w.applyDelta id state md
  | .fullReload => w.applyFullReload id state md
  | .remove => w.applyRemove id state

def runPlanned (id : ListId) (state : ListSyncState) (action : WorkerAction)
    (md : TaskMetadata) : Redis WorkerRunOutcome := do
  w.markForwardOnly id
  w.runAction id state md action
  pure (.completed action)

def runClaimed (id : ListId) : Redis WorkerRunOutcome := do
  let metaFields ← hgetallMeta id
  let stateFields ← hgetState id
  let state := ListSyncState.fromHashFields stateFields
  match taskMetadata metaFields stateFields with
  | .error e => .throw e
  | .ok none => pure .dropped
  | .ok (some md) =>
    match md.op with
    | .remove => w.runPlanned id state .remove md
    | .load => do
      let plan ← w.planWork id (!stateFields.isEmpty) state md
      match plan with
      | none => pure .dropped
      | some (action, target) => w.runPlanned id state action target

/-- `run_once`: pop a task, claim its list, run it and release the claim. -/
def runOnce : Redis WorkerRunOutcome := do
  let popped ← zpopmin
  match popped with
  | none => pure .idle
  | some id => do
    let claimed ← tryAcquire id
    if claimed then do
      let outcome ← w.runClaimed id
      releaseClaim id
      pure outcome
    else pure .claimConflict

end IdListSyncWorker

end ForwardProxy.IdList
