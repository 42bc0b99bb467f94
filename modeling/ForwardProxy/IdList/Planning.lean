/-
ForwardProxy.IdList.Planning — the pure planning policy
(`redis_syncer/planning.rs`), shared by the producer and the worker.
-/
import ForwardProxy.IdList.Schema

namespace ForwardProxy.IdList

/-- Work the producer (and later the worker) decides is needed for one
list. -/
inductive SyncAction where
  | fullLoad
  | delta (lag : Nat)
  | remove
  deriving DecidableEq, Repr

def SyncAction.class : SyncAction → Nat
  | .fullLoad => 0
  | .delta _ => 1
  | .remove => 2

def SyncAction.lag : SyncAction → Nat
  | .delta lag => lag
  | _ => 0

/-- `needs_work_with_reverse_index`. -/
def needsWorkWithReverseIndex (state : Option ListSyncState) (md : IdListMetadata)
    (fwdExists enableReverseIndex : Bool) : Option SyncAction :=
  match state with
  | none => some .fullLoad
  | some state =>
    if state.version = "" then some .fullLoad
    else if md.fileId ≠ state.fileId then
      -- A different file is authoritative only when its creation time is newer.
      if state.creationTime < md.creationTime then some .fullLoad else none
    else if enableReverseIndex && state.reverseIndexDisabled then some .fullLoad
    else if state.loadingVersion.isSome then some .fullLoad
    else if 0 < state.cardinality.getD state.size ∧ fwdExists = false then some .fullLoad
    else if state.size < md.size then some (.delta (md.size - state.size))
    else none

/-- The file the plan is about: the manifest's, unless a skipped reverse
index must be repaired while the manifest advertises an older file. -/
def planTarget (state : Option ListSyncState) (md : IdListMetadata)
    (enableReverseIndex : Bool) : IdListMetadata :=
  match state with
  | some state =>
    if enableReverseIndex && state.reverseIndexDisabled && state.version ≠ "" &&
        md.fileId ≠ state.fileId && md.creationTime ≤ state.creationTime
    then state.committedMeta else md
  | none => md

/-- `plan_sync_with_reverse_index`. -/
def planSyncWithReverseIndex (state : Option ListSyncState) (md : IdListMetadata)
    (fwdExists enableReverseIndex : Bool) : Option (SyncAction × IdListMetadata) :=
  let target := planTarget state md enableReverseIndex
  (needsWorkWithReverseIndex state target fwdExists enableReverseIndex).map fun action =>
    (action, target)

end ForwardProxy.IdList
