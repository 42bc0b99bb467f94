/-
ForwardProxy.Datastore.DataProvider — one fetch, from the request to the
notification of the observers (`http_data_provider.rs`,
`background_data_provider.rs`).

What differs between the endpoints is the request builder: what it does
with the status of a response, how it tells an update from a repetition,
its backup cache and its observers. These are programs over the commands
of the endpoint, and a fetch is a program made of them. A fetch that is
ended by the request guard's timeout is a run of it that stops between two
commands.

What upstream does is given as data, an `Attempt` for each request sent.
-/
import ForwardProxy.Datastore.RequestContext
import ForwardProxy.Effect.Prog

namespace ForwardProxy.Datastore

open Effect

/-- What one request to upstream comes to. A response has a status, the
since-time of its headers if it can be parsed, and its payload if the body
can be read to its end. -/
inductive Attempt where
  | connectError
  | otherError
  | response (status : Nat) (sinceTime : Option Nat) (payload : Option ResponsePayload)
  deriving DecidableEq, Repr

structure DataProviderResult where
  result : DataProviderRequestResult
  body : Option ResponsePayload
  lcut : Nat
  deriving DecidableEq, Repr

/-- `RequestBuilderTrait`, as far as a fetch uses it. -/
structure RequestBuilder (C : Type) (R : C → Type) (ε : Type) where
  /-- The part of `make_request` after the response. -/
  onStatus : AuthorizedRequestContext → Nat → Prog C R ε Unit
  isAnUpdate : AuthorizedRequestContext → List UInt8 → Prog C R ε Bool
  /-- `get` of the backup cache: an lcut and a payload. -/
  backupGet : AuthorizedRequestContext → Prog C R ε (Option (Nat × ResponsePayload))
  notifyAll : AuthorizedRequestContext → ResponseContext → Prog C R ε Unit

section

variable {C : Type} {R : C → Type} {ε : Type} (builder : RequestBuilder C R ε)
  (rc : AuthorizedRequestContext) (lcut : Nat)

namespace HttpDataProvider

def handleError (status : Option Nat) : DataProviderResult where
  result :=
    match status with
    | some code =>
      if code = 401 ∨ code = 403 then .unauthorized
      else if 400 ≤ code ∧ code ≤ 499 then .clientError
      else .error
    | none => .error
  body := none
  lcut := 0

def handleNoData : DataProviderResult := ⟨.noDataAvailable, none, 0⟩

def parseSinceTime (sinceTime : Option Nat) : Nat :=
  if !rc.useLcut then lcut else sinceTime.getD 0

def isSuccess (status : Nat) : Bool := 200 ≤ status ∧ status ≤ 299

def handleResponse (status : Nat) (sinceTime : Option Nat) (payload : Option ResponsePayload) :
    Prog C R ε DataProviderResult :=
  if status = 204 then .pure handleNoData
  else
    match payload with
    | none => .pure (handleError (some status))
    | some payload =>
      if !isSuccess status then .pure (handleError (some status))
      else do
        let update ← builder.isAnUpdate rc payload.data
        if !update then .pure handleNoData
        else .pure ⟨.dataAvailable, some payload, parseSinceTime rc lcut sinceTime⟩

/-- What is made of a request that is not sent again. -/
def settle : Attempt → Prog C R ε DataProviderResult
  | .connectError | .otherError => .pure (handleError none)
  | .response status sinceTime payload => do
    builder.onStatus rc status
    handleResponse builder rc lcut status sinceTime payload

/-- A request that could not be connected is sent once more. -/
def get (first second : Attempt) : Prog C R ε DataProviderResult :=
  match first with
  | .connectError => settle builder rc lcut second
  | first => settle builder rc lcut first

/-- The attempt that decides the result. -/
def answered (first second : Attempt) : Attempt :=
  match first with
  | .connectError => second
  | first => first

theorem get_eq (first second : Attempt) :
    get builder rc lcut first second = settle builder rc lcut (answered first second) := by
  cases first with
  | connectError => rfl
  | otherError => rfl
  | response status sinceTime payload => rfl

end HttpDataProvider

/-- The payload of a success response. -/
def Attempt.succeeded : Attempt → Option ResponsePayload
  | .response status _ (some payload) =>
    if status ≠ 204 ∧ HttpDataProvider.isSuccess status then some payload else none
  | _ => none

namespace BackgroundDataProvider

/-- The payload of a notification that carries none. -/
def emptyPayload : ResponsePayload := ⟨false, .plainText, []⟩

/-- The notification that a result gives rise to, if any. -/
def notifyResult (clearDatastoreOnUnauthorized : Bool) (dp : DataProviderResult) :
    Prog C R ε Unit :=
  match dp.result with
  | .dataAvailable =>
    match dp.body with
    | some data =>
      Prog.when (!rc.useLcut || lcut ≠ dp.lcut)
        (builder.notifyAll rc ⟨.dataAvailable, dp.lcut, lcut, data⟩)
    | none => .pure ()
  | .noDataAvailable => .pure ()
  | .error => do
    let backup ← builder.backupGet rc
    match backup with
    | some (backupLcut, config) => builder.notifyAll rc ⟨.error, backupLcut, lcut, config⟩
    | none => .pure ()
  | .unauthorized =>
    Prog.when clearDatastoreOnUnauthorized
      (builder.notifyAll rc ⟨.unauthorized, lcut, lcut, emptyPayload⟩)
  | .clientError => builder.notifyAll rc ⟨.clientError, lcut, lcut, emptyPayload⟩

def processResult (clearDatastoreOnUnauthorized : Bool) (dp : DataProviderResult) :
    Prog C R ε DataProviderRequestResult := do
  notifyResult builder rc lcut clearDatastoreOnUnauthorized dp
  .pure dp.result

def processRequest (clearDatastoreOnUnauthorized : Bool) (first second : Attempt) :
    Prog C R ε DataProviderRequestResult := do
  let dp ← HttpDataProvider.get builder rc lcut first second
  processResult builder rc lcut clearDatastoreOnUnauthorized dp

end BackgroundDataProvider

end

end ForwardProxy.Datastore
