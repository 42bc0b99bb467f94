/-
ForwardProxy.IdList.Producer — the producer tick (`redis_syncer.rs`), the
task order (`redis_syncer/planning.rs`) and the manifest union per company
(`namespaces.rs`).

A `BTreeMap` is an association list sorted by key and a `HashMap` an
association list in the order of insertion. The source iterates over the
manifest of a company in the hash order; the loop only reads, and its
results are sorted afterwards, so the order does not show.

The SHA-256 of a company id is a parameter. A queue score is a whole
number below 2^53, which a double holds exactly, so it is a `Nat`.
-/
import Mathlib.Algebra.Group.Nat.Defs
import Mathlib.Data.List.Sort
import ForwardProxy.IdList.Worker

namespace ForwardProxy.IdList

open Effect

/-! ## Company manifests (`namespaces.rs`) -/

/-- List name to metadata; a manifest has one entry per name. -/
abbrev IdListManifest : Type := List (String × IdListMetadata)

structure CompanyManifest where
  lists : IdListManifest := []
  incomplete : Bool := false
  deriving DecidableEq, Repr

structure NamespaceCollision where
  namespaceId : String
  companyIds : List String
  deriving DecidableEq, Repr

/-- The configured keys (sorted, without repetition), the company each was
discovered to belong to, and the latest manifest of each. -/
structure IdListNamespaces where
  serverKeys : List String
  companyId : String → Option String
  manifests : String → Option IdListManifest
  hashCompanyId : String → String

/-- `map.entry(key).or_default()`, modified by `f`. -/
def upsert {α : Type} (key : String) (dflt : α) (f : α → α) : List (String × α) → List (String × α)
  | [] => [(key, f dflt)]
  | (k, a) :: rest =>
    if key = k then (k, f a) :: rest
    else if key < k then (key, f dflt) :: (k, a) :: rest
    else (k, a) :: upsert key dflt f rest

/-- `BTreeSet::insert`. -/
def insertId (x : String) : List String → List String
  | [] => [x]
  | y :: ys => if x = y then y :: ys else if x < y then x :: y :: ys else y :: insertId x ys

/-- `HashMap::insert`. -/
def insertEntry (name : String) (entry : IdListMetadata) : IdListManifest → IdListManifest
  | [] => [(name, entry)]
  | (n, e) :: rest => if n = name then (n, entry) :: rest else (n, e) :: insertEntry name entry rest

/-- Whether an entry of another key's manifest replaces the one already in
the union. -/
def replaces (previous entry : IdListMetadata) : Bool :=
  if previous.fileId = entry.fileId then
    previous.size < entry.size ||
      (previous.size = entry.size && previous.creationTime < entry.creationTime)
  else
    previous.creationTime < entry.creationTime ||
      (previous.creationTime = entry.creationTime && previous.fileId < entry.fileId)

/-- Add one manifest entry to the union. -/
def mergeEntry (lists : IdListManifest) (item : String × IdListMetadata) : IdListManifest :=
  match lists.lookup item.1 with
  | some previous => if replaces previous item.2 then insertEntry item.1 item.2 lists else lists
  | none => insertEntry item.1 item.2 lists

namespace IdListNamespaces

variable (ns : IdListNamespaces)

/-- The companies behind each namespace. -/
def owners : List (String × List String) :=
  (ns.serverKeys.filterMap ns.companyId).foldl
    (fun acc companyId => upsert (ns.hashCompanyId companyId) [] (insertId companyId) acc) []

def collisions : List NamespaceCollision :=
  (ns.owners.filter fun owner => 1 < owner.2.length).map fun owner => ⟨owner.1, owner.2⟩

/-- The companies, the number of keys without company or manifest, and
whether some key has no company. -/
abbrev Union : Type := List (String × CompanyManifest) × Nat × Bool

/-- One key of the loop over the identities. -/
def mergeKey (acc : Union) (key : String) : Union :=
  match ns.companyId key with
  | none => (acc.1, acc.2.1 + 1, true)
  | some companyId =>
    match ns.manifests key with
    | none =>
      (upsert (ns.hashCompanyId companyId) {} (fun c => { c with incomplete := true }) acc.1,
        acc.2.1 + 1, acc.2.2)
    | some manifest =>
      (upsert (ns.hashCompanyId companyId) {}
        (fun c => { c with lists := manifest.foldl mergeEntry c.lists }) acc.1, acc.2)

/-- `company_manifests`: an unresolved key could belong to any company. -/
def companyManifests :
    Except (List NamespaceCollision) (List (String × CompanyManifest) × Nat) :=
  if ns.collisions ≠ [] then .error ns.collisions
  else
    let union := ns.serverKeys.foldl ns.mergeKey ([], 0, false)
    .ok (union.1.map fun company =>
      (company.1, { company.2 with incomplete := company.2.incomplete || union.2.2 }), union.2.1)

end IdListNamespaces

/-! ## Task order (`planning.rs`) -/

/-- One derived queue task before enqueue. -/
structure DerivedTask where
  id : ListId
  action : SyncAction
  md : Option IdListMetadata
  deriving DecidableEq, Repr

/-- The order of the queue: class, then lag downwards, then the name. -/
def taskLe (a b : DerivedTask) : Bool :=
  if a.action.class ≠ b.action.class then a.action.class < b.action.class
  else if a.action.lag ≠ b.action.lag then b.action.lag < a.action.lag
  else if a.id.skh ≠ b.id.skh then a.id.skh < b.id.skh
  else a.id.list ≤ b.id.list

def classScoreBase : Nat := 2 ^ 40

def taskScore (cls seq : Nat) : Nat := cls * classScoreBase + seq

/-- The loop over the sorted tasks: the first task of a list wins. -/
def dedupeTasks (seen : List ListId) (seqByClass : Nat → Nat) :
    List DerivedTask → List (Nat × DerivedTask)
  | [] => []
  | task :: tasks =>
    if task.id ∈ seen then dedupeTasks seen seqByClass tasks
    else
      (taskScore task.action.class (seqByClass task.action.class), task) ::
        dedupeTasks (task.id :: seen)
          (Function.update seqByClass task.action.class (seqByClass task.action.class + 1)) tasks

def orderAndDedupeTasks (tasks : List DerivedTask) : List (Nat × DerivedTask) :=
  dedupeTasks [] (fun _ => 0) (tasks.insertionSort fun a b => taskLe a b = true)

/-! ## One tick (`redis_syncer.rs`) -/

structure IdListSyncProducer where
  enableReverseIndex : Bool
  namespaces : IdListNamespaces

structure ProducerTickStats where
  tasksEnqueued : Nat
  removalsScheduled : Nat
  queueDepth : Nat
  manifestUnavailable : Nat
  tasksDerived : Nat
  deriving DecidableEq, Repr

namespace IdListSyncProducer

variable (p : IdListSyncProducer)

/-- The state of a list, as the planner takes it. -/
def parseState (h : StateHash) : Option ListSyncState :=
  if h.isEmpty then none else some (ListSyncState.fromHashFields h)

/-- One list of a company's manifest: whether its reverse index was
skipped, and its task. -/
def planList (skh : String) (item : String × IdListMetadata) : Redis (Bool × List DerivedTask) := do
  let h ← hgetState ⟨skh, item.1⟩
  let fwdExists ← IdListSyncWorker.forwardExists ⟨skh, item.1⟩ (!h.isEmpty)
    (ListSyncState.fromHashFields h)
  let pending := (parseState h).any (·.reverseIndexDisabled)
  match planSyncWithReverseIndex (parseState h) item.2 fwdExists p.enableReverseIndex with
  | none => pure (pending, [])
  | some (action, target) => pure (pending, [⟨⟨skh, item.1⟩, action, some target⟩])

/-- The removals of a company: known lists that left a complete manifest. -/
def removals (skh : String) (company : CompanyManifest) (known : List String) :
    List DerivedTask :=
  (known.filter fun name => !company.incomplete && (company.lists.lookup name).isNone).map
    fun name => ⟨⟨skh, name⟩, .remove, none⟩

/-- The readiness marker of a company without work. -/
def markReady (skh : String) (company : CompanyManifest) (rebuildPending : Bool) : Redis Unit :=
  if p.enableReverseIndex && rebuildPending then write (.delReady skh)
  else do
    Prog.when p.enableReverseIndex (write (.hdelDictDisabled skh))
    write (.setReady skh company.lists.length)

/-- The body of the loop over the companies; the accumulator holds the
tasks derived so far and the number of removals. -/
def produceCompany (acc : List DerivedTask × Nat) (item : String × CompanyManifest) :
    Redis (List DerivedTask × Nat) := do
  let planned ← Prog.fold (fun (found : Bool × List DerivedTask) list => do
    let (pending, tasks) ← p.planList item.1 list
    pure (found.1 || pending, found.2 ++ tasks)) (false, []) item.2.lists
  let known ← smembersAll item.1
  let removed := removals item.1 item.2 known
  Prog.when (!item.2.incomplete && (planned.2 ++ removed).isEmpty)
    (p.markReady item.1 item.2 planned.1)
  pure (acc.1 ++ planned.2 ++ removed, acc.2 + removed.length)

/-- The HSETs and the EXPIRE of one task, in the pipeline's order. -/
def enqueueWrites (task : DerivedTask) : List Write :=
  (match task.action, task.md with
    | .remove, _ => [.hsetMeta task.id (.op .remove)]
    | _, some md =>
      [.hsetMeta task.id (.op .load), .hsetMeta task.id (.url md.url),
        .hsetMeta task.id (.fileId md.fileId), .hsetMeta task.id (.creationTime md.creationTime),
        .hsetMeta task.id (.size md.size)]
    | _, none => [.hsetMeta task.id (.op .load)]) ++ [.expireMeta task.id]

/-- One task of the pipeline: its metadata always, its queue entry only if
the list is not queued. -/
def enqueueTask (added : Nat) (task : Nat × DerivedTask) : Redis Nat := do
  Prog.forEach write (enqueueWrites task.2)
  let n ← zaddNx task.1 task.2.id
  pure (added + n)

def enqueueChunk : Nat := 64

def enqueueTasks (tasks : List (Nat × DerivedTask)) : Redis Nat :=
  Prog.fold (fun added chunk => Prog.fold enqueueTask added chunk) 0 (chunks enqueueChunk tasks)

def produceLocked : Redis ProducerTickStats :=
  match p.namespaces.companyManifests with
  | .error _ => .throw (.redis "ID-list namespace collision; task generation aborted")
  | .ok (companies, unavailable) => do
    let derived ← Prog.fold p.produceCompany ([], 0) companies
    let ordered := orderAndDedupeTasks derived.1
    let enqueued ← enqueueTasks ordered
    let depth ← zcard
    pure ⟨enqueued, derived.2, depth, unavailable, ordered.length⟩

end IdListSyncProducer

end ForwardProxy.IdList
