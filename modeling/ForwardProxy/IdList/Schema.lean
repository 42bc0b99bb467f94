/-
ForwardProxy.IdList.Schema — the data the id-list synchronizer keeps in
Redis for one list, and the values the code parses it into
(`idlist_membership/schema.rs`, `worker/core.rs`).

Redis hashes hold strings; here a hash is a record of optional typed
fields, one per field name of `state_fields` and `task_meta_fields`. A
field that the code only tests with `contains_key` is a `Bool`. The
`unwrap_or_default` of the parsers is kept: `ListSyncState` is what
`from_hash_fields` makes of the hash, with `""` and `0` for absent
fields, and every planning decision is taken on it.

`diff_partition` is parsed as a `u32`. A Redis set holds fewer than 2^32
members and there are never more partitions than members, so the parse
cannot fail on a value the code wrote and the field is a `Nat` here.
-/
import Mathlib.Tactic.Common

namespace ForwardProxy.IdList

/-- The pair every worker call carries: the company namespace (`skh`) and
the list name. -/
structure ListId where
  skh : String
  list : String
  deriving DecidableEq, Repr

/-- One version of an id list, as the manifest advertises it. -/
structure IdListMetadata where
  fileId : String
  creationTime : Nat
  url : String
  size : Nat
  deriving DecidableEq, Repr

/-- `IdListKeySchema::version_tag`. -/
def versionTag (md : IdListMetadata) : String :=
  if md.fileId = "" then toString md.creationTime
  else md.fileId ++ "@" ++ toString md.creationTime

/-! ## The state hash -/

/-- The per-list sync state HASH. `none` is an absent field. -/
structure StateHash where
  version : Option String := none
  fileId : Option String := none
  url : Option String := none
  creationTime : Option Nat := none
  size : Option Nat := none
  cardinality : Option Nat := none
  loadingCardinality : Option Nat := none
  reconcileRequired : Bool := false
  loadingVersion : Option String := none
  loadingSize : Option Nat := none
  diffPartition : Option Nat := none
  removalFanoutComplete : Bool := false
  reverseIndexDisabled : Bool := false
  deriving DecidableEq, Repr

/-- One `field value` pair of an `HSET` on the state hash. -/
inductive StateField where
  | version (v : String)
  | fileId (v : String)
  | url (v : String)
  | creationTime (n : Nat)
  | size (n : Nat)
  | cardinality (n : Nat)
  | loadingCardinality (n : Nat)
  | reconcileRequired
  | loadingVersion (v : String)
  | loadingSize (n : Nat)
  | diffPartition (n : Nat)
  | removalFanoutComplete
  | reverseIndexDisabled
  deriving DecidableEq, Repr

/-- A field name of the state hash, as `HDEL` takes it. Only the fields
the code ever deletes are named. -/
inductive StateFieldName where
  | loadingVersion
  | loadingSize
  | loadingCardinality
  | reconcileRequired
  | diffPartition
  | removalFanoutComplete
  | reverseIndexDisabled
  deriving DecidableEq, Repr

namespace StateHash

def set (h : StateHash) : StateField → StateHash
  | .version v => { h with version := some v }
  | .fileId v => { h with fileId := some v }
  | .url v => { h with url := some v }
  | .creationTime n => { h with creationTime := some n }
  | .size n => { h with size := some n }
  | .cardinality n => { h with cardinality := some n }
  | .loadingCardinality n => { h with loadingCardinality := some n }
  | .reconcileRequired => { h with reconcileRequired := true }
  | .loadingVersion v => { h with loadingVersion := some v }
  | .loadingSize n => { h with loadingSize := some n }
  | .diffPartition n => { h with diffPartition := some n }
  | .removalFanoutComplete => { h with removalFanoutComplete := true }
  | .reverseIndexDisabled => { h with reverseIndexDisabled := true }

def del (h : StateHash) : StateFieldName → StateHash
  | .loadingVersion => { h with loadingVersion := none }
  | .loadingSize => { h with loadingSize := none }
  | .loadingCardinality => { h with loadingCardinality := none }
  | .reconcileRequired => { h with reconcileRequired := false }
  | .diffPartition => { h with diffPartition := none }
  | .removalFanoutComplete => { h with removalFanoutComplete := false }
  | .reverseIndexDisabled => { h with reverseIndexDisabled := false }

/-- `HSET key f₁ v₁ f₂ v₂ …`: one atomic command. -/
def setAll (h : StateHash) (fs : List StateField) : StateHash := fs.foldl set h

/-- `HDEL key f₁ f₂ …`: one atomic command. -/
def delAll (h : StateHash) (fs : List StateFieldName) : StateHash := fs.foldl del h

/-- Redis drops a hash without fields, so `HGETALL` is empty exactly then. -/
def isEmpty (h : StateHash) : Bool := h == {}

end StateHash

/-- Parsed view of the per-list sync state HASH. -/
structure ListSyncState where
  reverseIndexDisabled : Bool := false
  version : String := ""
  fileId : String := ""
  url : String := ""
  creationTime : Nat := 0
  size : Nat := 0
  cardinality : Option Nat := none
  loadingCardinality : Option Nat := none
  reconcileRequired : Bool := false
  loadingVersion : Option String := none
  loadingSize : Option Nat := none
  diffPartition : Option Nat := none
  deriving DecidableEq, Repr

/-- `ListSyncState::from_hash_fields`. -/
def ListSyncState.fromHashFields (h : StateHash) : ListSyncState where
  reverseIndexDisabled := h.reverseIndexDisabled
  version := h.version.getD ""
  fileId := h.fileId.getD ""
  url := h.url.getD ""
  creationTime := h.creationTime.getD 0
  size := h.size.getD 0
  cardinality := h.cardinality
  loadingCardinality := h.loadingCardinality
  reconcileRequired := h.reconcileRequired
  loadingVersion := h.loadingVersion
  loadingSize := h.loadingSize
  diffPartition := h.diffPartition

/-- The metadata of the committed version, which a reverse repair under a
stale manifest takes as its target. -/
def ListSyncState.committedMeta (s : ListSyncState) : IdListMetadata :=
  ⟨s.fileId, s.creationTime, s.url, s.size⟩

/-! ## The task metadata hash -/

inductive TaskOp where
  | load
  | remove
  deriving DecidableEq, Repr

/-- The per-task metadata HASH. -/
structure TaskMetaHash where
  op : Option TaskOp := none
  url : Option String := none
  fileId : Option String := none
  creationTime : Option Nat := none
  size : Option Nat := none
  deriving DecidableEq, Repr

/-- One `HSET` of the producer's enqueue pipeline. -/
inductive TaskMetaField where
  | op (o : TaskOp)
  | url (v : String)
  | fileId (v : String)
  | creationTime (n : Nat)
  | size (n : Nat)
  deriving DecidableEq, Repr

namespace TaskMetaHash

def set (h : TaskMetaHash) : TaskMetaField → TaskMetaHash
  | .op o => { h with op := some o }
  | .url v => { h with url := some v }
  | .fileId v => { h with fileId := some v }
  | .creationTime n => { h with creationTime := some n }
  | .size n => { h with size := some n }

def isEmpty (h : TaskMetaHash) : Bool := h == {}

end TaskMetaHash

inductive WorkerError where
  | redis (message : String)
  | invalidTask (message : String)
  | invalidFile (message : String)
  | originStatus (status : Nat)
  | rangeIgnored
  | lockLost
  | scanVerification (message : String)
  | missingDictionaryToken
  deriving DecidableEq, Repr

structure TaskMetadata where
  op : TaskOp
  fileId : String
  creationTime : Nat
  url : String
  size : Nat
  deriving DecidableEq, Repr

namespace TaskMetadata

/-- `TaskMetadata::from_hash`. A remove task is read with defaults; a load
task must have its numbers and a non-empty URL. -/
def fromHash (h : TaskMetaHash) : Except WorkerError TaskMetadata :=
  match h.op with
  | none => .error (.invalidTask "task op is missing")
  | some .remove =>
    .ok ⟨.remove, h.fileId.getD "", h.creationTime.getD 0, h.url.getD "", h.size.getD 0⟩
  | some .load =>
    match h.creationTime with
    | none => .error (.invalidTask "creation_time is missing")
    | some creationTime =>
      match h.url.filter (· ≠ "") with
      | none => .error (.invalidTask "url is missing")
      | some url =>
        match h.size with
        | none => .error (.invalidTask "size is missing")
        | some size => .ok ⟨.load, h.fileId.getD "", creationTime, url, size⟩

def asIdListMetadata (md : TaskMetadata) : IdListMetadata :=
  ⟨md.fileId, md.creationTime, md.url, md.size⟩

def versionTag (md : TaskMetadata) : String := IdList.versionTag md.asIdListMetadata

/-- The load task a manifest entry becomes. -/
def ofMetadata (md : IdListMetadata) : TaskMetadata :=
  ⟨.load, md.fileId, md.creationTime, md.url, md.size⟩

end TaskMetadata

end ForwardProxy.IdList
