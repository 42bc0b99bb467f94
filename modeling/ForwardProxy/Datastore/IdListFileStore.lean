/-
ForwardProxy.Datastore.IdListFileStore — the id-list files that are served
(`id_list_file_store.rs`, `IdListFileRequestBuilder` in
`request_builder.rs`, `foreground_fetch`, `get_download_id_list_file`).

The cache has one entry per file id, whatever the key, the size and the
range of a request. A request that the cached body does not satisfy is sent
to upstream, with its own signed query; then whatever is cached is returned.

Upstream decides whether a key may have a file. `accepted` is the history
of its success responses. Whether a fetch is made at all is decided by a
lock that is kept for 30 seconds and by the back-off, both per context;
here it is open (`mayFetch`). The cache may drop an entry at any time, an
entry it has just been given included. There is no backup cache here.
-/
import Mathlib.Logic.Function.Basic
import ForwardProxy.Datastore.DataProvider

namespace ForwardProxy.Datastore

open Effect

/-! ## Requests -/

/-- A context with the start of the requested range, which is no part of
its identity. -/
structure FileRequest extends AuthorizedRequestContext where
  rangeStart : Option Nat
  deriving DecidableEq, Repr

def cachedBodySatisfiesRequest (bytes : List UInt8) (rc : FileRequest) : Bool :=
  let cachedLen := bytes.length
  match rc.rangeStart with
  | some start =>
    if rc.idListSize = none then start < cachedLen
    else
      (start < cachedLen || (cachedLen = start && rc.idListSize = some cachedLen)) &&
        rc.idListSize.all fun idListSize => idListSize ≤ cachedLen
  | none => rc.idListSize.all fun idListSize => idListSize ≤ cachedLen

/-! ## The cache -/

structure IdListFileStore where
  store : String → Option (List UInt8)

namespace IdListFileStore

def new : IdListFileStore := ⟨fun _ => none⟩

def insert (s : IdListFileStore) (fileId : String) (body : List UInt8) : IdListFileStore :=
  ⟨Function.update s.store fileId (some body)⟩

def invalidate (s : IdListFileStore) (fileId : String) : IdListFileStore :=
  ⟨Function.update s.store fileId none⟩

/-- The observer. -/
def update (s : IdListFileStore) (rc : AuthorizedRequestContext) (response : ResponseContext) :
    IdListFileStore :=
  match rc.fileId with
  | none => s
  | some cacheKey =>
    match response.resultType with
    | .dataAvailable | .error => s.insert cacheKey response.body.data
    | .unauthorized => s.invalidate cacheKey
    | .noDataAvailable | .clientError => s

end IdListFileStore

/-! ## The server -/

/-- A success response to a request for a file. -/
structure Acceptance where
  sdkKey : String
  fileId : Option String
  body : List UInt8
  deriving DecidableEq, Repr

structure FileServer where
  files : IdListFileStore
  accepted : List Acceptance

inductive FileCmd where
  | storeGet (fileId : String)
  /-- The lock and the back-off of the context. -/
  | mayFetch (rc : AuthorizedRequestContext)
  | upstream (rc : AuthorizedRequestContext)
  | update (rc : AuthorizedRequestContext) (response : ResponseContext)
  /-- The result of `get_or_fetch`, for the client. -/
  | returned (rc : FileRequest) (body : Option (List UInt8))
  | evict (fileId : String)
  deriving DecidableEq, Repr

/-- A fetch may be ended by its timeout. -/
def FileCmd.Reply : FileCmd → Type
  | .storeGet _ => Option (List UInt8)
  | .mayFetch _ => Bool
  | .upstream _ => Option (Attempt × Attempt)
  | _ => Unit

namespace FileServer

def new : FileServer := ⟨IdListFileStore.new, []⟩

def answer (s : FileServer) (rc : AuthorizedRequestContext) (attempt : Attempt) : FileServer :=
  match attempt.succeeded with
  | some payload => { s with accepted := ⟨rc.sdkKey, rc.fileId, payload.data⟩ :: s.accepted }
  | none => s

end FileServer

def fileServer : Handler FileCmd FileCmd.Reply FileServer where
  step s c r s' :=
    match c, r with
    | .storeGet fileId, r => r = s.files.store fileId ∧ s' = s
    | .mayFetch _, _ => s' = s
    | .upstream rc, some (first, second) =>
      s' = s.answer rc (HttpDataProvider.answered first second)
    | .upstream rc, none => s' = s ∨ ∃ attempt, s' = s.answer rc attempt
    | .update rc response, _ => s' = { s with files := s.files.update rc response }
    | .returned _ _, _ => s' = s
    | .evict fileId, _ => s' = { s with files := s.files.invalidate fileId }

/-- What upstream answers is read from the script; every fetch is made. -/
def fileServerRunner : Runner fileServer (List Attempt) where
  next s c w :=
    match c with
    | .storeGet fileId => some (s.files.store fileId, s, w)
    | .mayFetch _ => some (true, s, w)
    | .upstream rc =>
      match w with
      | attempt :: w =>
        some (some (attempt, attempt), s.answer rc (HttpDataProvider.answered attempt attempt), w)
      | [] => none
    | .update rc response => some ((), { s with files := s.files.update rc response }, w)
    | .returned _ _ => some ((), s, w)
    | .evict fileId => some ((), { s with files := s.files.invalidate fileId }, w)
  sound := by
    intro s c w r s' w' h
    cases c with
    | storeGet fileId =>
      cases h
      exact ⟨rfl, rfl⟩
    | mayFetch rc =>
      cases h
      rfl
    | upstream rc =>
      cases w with
      | nil => simp at h
      | cons attempt w =>
        cases h
        rfl
    | update rc response =>
      cases h
      rfl
    | returned rc body =>
      cases h
      rfl
    | evict fileId =>
      cases h
      rfl

/-! ## Downloads -/

abbrev FileProg (α : Type) : Type := Prog FileCmd FileCmd.Reply Empty α

def cacheGet (fileId : String) : FileProg (Option (List UInt8)) :=
  Prog.cmd (FileCmd.storeGet fileId)

def mayFetch (rc : AuthorizedRequestContext) : FileProg Bool := Prog.cmd (FileCmd.mayFetch rc)

def upstream (rc : AuthorizedRequestContext) : FileProg (Option (Attempt × Attempt)) :=
  Prog.cmd (FileCmd.upstream rc)

def returned (rc : FileRequest) (body : Option (List UInt8)) : FileProg Unit :=
  Prog.cmd (FileCmd.returned rc body)

def idListFileRequestBuilder : RequestBuilder FileCmd FileCmd.Reply Empty where
  onStatus _ _ := .pure ()
  isAnUpdate _ _ := .pure true
  backupGet _ := .pure none
  notifyAll rc response := Prog.cmd (FileCmd.update rc response)

def foregroundFetch (rc : AuthorizedRequestContext) (sinceTime : Nat)
    (clearDatastoreOnUnauthorized : Bool) : FileProg Unit := do
  let may ← mayFetch rc
  if !may then .pure ()
  else do
    let attempts ← upstream rc
    match attempts with
    | none => .pure ()
    | some (first, second) => do
      let _ ← BackgroundDataProvider.processRequest idListFileRequestBuilder rc sinceTime
        clearDatastoreOnUnauthorized first second
      .pure ()

namespace IdListFileStore

def getStoredBody (rc : FileRequest) : FileProg (Option (List UInt8)) :=
  match rc.fileId with
  | none => .pure none
  | some cacheKey => cacheGet cacheKey

def getCachedHit (rc : FileRequest) : FileProg (Option (List UInt8)) := do
  let stored ← getStoredBody rc
  .pure (stored.filter fun hit => cachedBodySatisfiesRequest hit rc)

/-- Called for the files of a new manifest. -/
def ensureFreshEnough (rc : FileRequest) : FileProg Bool := do
  let hit ← getCachedHit rc
  if hit.isSome then .pure true
  else if rc.fileId = none then .pure false
  else do
    foregroundFetch rc.toAuthorizedRequestContext 0 false
    let hit ← getCachedHit rc
    .pure hit.isSome

/-- What is returned if the cached body does not do. -/
def fetchBody (rc : FileRequest) : FileProg (Option (List UInt8)) :=
  if rc.fileId = none then .pure none
  else do
    foregroundFetch rc.toAuthorizedRequestContext 0 false
    getStoredBody rc

def getOrFetch (rc : FileRequest) : FileProg (Option (List UInt8)) := do
  let previousBody ← getStoredBody rc
  if previousBody.any fun hit => cachedBodySatisfiesRequest hit rc then .pure previousBody
  else fetchBody rc

end IdListFileStore

/-- The body is sliced and sent by the server. -/
def getDownloadIdListFile (rc : FileRequest) : FileProg Unit := do
  let body ← IdListFileStore.getOrFetch rc
  returned rc body

end ForwardProxy.Datastore
