/-
ForwardProxy.Datastore.GetIdListStore — the id-list manifests that are
served, and how they are polled (`id_list_store.rs`, `IdlistRequestBuilder`
in `request_builder.rs`).

A manifest has no lcut. Whether a response is an update is decided by its
SHA-256, which the request builder records per context
(`last_response_hash`); the payload that is served is written later, by an
observer. `sha256` is a parameter.

The other observers of this endpoint (the `SdkKeyStore`, the backup cache
and the id-list subsystem) write to neither map. What the backup cache
holds is not modelled: it may answer with anything.
-/
import Mathlib.Logic.Function.Basic
import ForwardProxy.Datastore.DataProvider

namespace ForwardProxy.Datastore

open Effect

structure IdListPolls (η : Type) where
  lastResponseHash : AuthorizedRequestContext → Option η
  store : AuthorizedRequestContext → Option ResponsePayload

inductive PollCmd where
  /-- `last_response_hash.write().remove`. -/
  | forgetHash (rc : AuthorizedRequestContext)
  /-- `is_an_update`, which holds the lock of the hashes to its end. -/
  | isAnUpdate (rc : AuthorizedRequestContext) (body : List UInt8)
  | backupGet (rc : AuthorizedRequestContext)
  | storeInsert (rc : AuthorizedRequestContext) (idlists : ResponsePayload)
  | storeRemove (rc : AuthorizedRequestContext)
  deriving DecidableEq, Repr

def PollCmd.Reply : PollCmd → Type
  | .isAnUpdate _ _ => Bool
  | .backupGet _ => Option (Nat × ResponsePayload)
  | _ => Unit

section

variable {η : Type} [DecidableEq η] (sha256 : List UInt8 → η)

namespace IdListPolls

def new : IdListPolls η := ⟨fun _ => none, fun _ => none⟩

/-- A body whose hash is the recorded one is no update; of an update the
hash is recorded. -/
def isAnUpdate (s : IdListPolls η) (rc : AuthorizedRequestContext) (body : List UInt8) :
    Bool × IdListPolls η :=
  if s.lastResponseHash rc = some (sha256 body) then (false, s)
  else
    (true, { s with lastResponseHash := Function.update s.lastResponseHash rc (some (sha256 body)) })

end IdListPolls

def idListPolls : Handler PollCmd PollCmd.Reply (IdListPolls η) where
  step s c r s' :=
    match c, r with
    | .forgetHash rc, _ =>
      s' = { s with lastResponseHash := Function.update s.lastResponseHash rc none }
    | .isAnUpdate rc body, r => s.isAnUpdate sha256 rc body = (r, s')
    | .backupGet _, _ => s' = s
    | .storeInsert rc idlists, _ => s' = { s with store := Function.update s.store rc (some idlists) }
    | .storeRemove rc, _ => s' = { s with store := Function.update s.store rc none }

end

/-! ## The endpoint -/

abbrev PollProg (α : Type) : Type := Prog PollCmd PollCmd.Reply Empty α

def GetIdListStore.update (rc : AuthorizedRequestContext) (response : ResponseContext) :
    PollProg Unit :=
  if response.resultType = .error ∨ response.resultType = .dataAvailable then
    Prog.cmd (PollCmd.storeInsert rc response.body)
  else if response.resultType = .unauthorized then Prog.cmd (PollCmd.storeRemove rc)
  else .pure ()

/-- A refused key is forgotten, so that its manifest is loaded again when it
is accepted again. -/
def idlistRequestBuilder : RequestBuilder PollCmd PollCmd.Reply Empty where
  onStatus rc status :=
    if status = 401 ∨ status = 403 then Prog.cmd (PollCmd.forgetHash rc) else .pure ()
  isAnUpdate rc body := Prog.cmd (PollCmd.isAnUpdate rc body)
  backupGet rc := Prog.cmd (PollCmd.backupGet rc)
  notifyAll := GetIdListStore.update

/-- A poll of `get_id_lists`. -/
def pollIdLists (rc : AuthorizedRequestContext) (lcut : Nat) (clear : Bool)
    (first second : Attempt) : PollProg DataProviderRequestResult :=
  BackgroundDataProvider.processRequest idlistRequestBuilder rc lcut clear first second

end ForwardProxy.Datastore
