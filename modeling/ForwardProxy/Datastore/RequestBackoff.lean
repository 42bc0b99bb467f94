/-
ForwardProxy.Datastore.RequestBackoff — when a request that has failed may
be attempted again (`request_backoff.rs`).

The controller keeps one state for each key that has failed. Its operations
are given the time at which they are called. The range of instants is not
modelled: the sum of an instant and a delay is always an instant.
-/
import ForwardProxy.Datastore.RequestContext
import ForwardProxy.Time.Duration

namespace ForwardProxy.Datastore

open Time

/-! ## The policy -/

structure RequestBackoffPolicy where
  initialDelay : Nat
  maxDelay : Nat
  deriving DecidableEq, Repr

namespace RequestBackoffPolicy

/-- The product of the seconds saturates. -/
def fromPollingInterval (pollingIntervalInS : UInt64) : RequestBackoffPolicy :=
  let baseSecs := max pollingIntervalInS.toNat 1
  { initialDelay := fromSecs baseSecs
    maxDelay := fromSecs (min (min (baseSecs * 32) (2 ^ 64 - 1)) 300) }

def delayForFailure (policy : RequestBackoffPolicy) (failureCount : Nat) : Nat :=
  let exponent := min (failureCount - 1) 31
  let factor := min (2 ^ exponent) (2 ^ 32 - 1)
  let scaledDelay := (durationMul policy.initialDelay factor).getD policy.maxDelay
  min scaledDelay policy.maxDelay

end RequestBackoffPolicy

/-! ## The controller -/

structure RequestBackoffState where
  consecutiveFailures : Nat
  retryAfter : Nat
  lastSeen : Nat
  deriving DecidableEq, Repr

/-- The states by key. -/
abbrev RequestBackoffController (κ : Type) : Type := κ → Option RequestBackoffState

namespace RequestBackoffController

variable {κ : Type} [DecidableEq κ] (policy : RequestBackoffPolicy)

def new : RequestBackoffController κ := fun _ => none

variable (c : RequestBackoffController κ)

/-- The states with that of one key replaced. -/
def set (key : κ) (state : Option RequestBackoffState) : RequestBackoffController κ :=
  Function.update c key state

/-- Also refreshes the last-seen time, so that an active key is not pruned
while it backs off. -/
def canAttempt (key : κ) (now : Nat) : Bool × RequestBackoffController κ :=
  match c key with
  | none => (true, c)
  | some state => (state.retryAfter ≤ now, c.set key (some { state with lastSeen := now }))

def recordSuccess (key : κ) : RequestBackoffController κ := c.set key none

/-- The count of failures saturates at 32 bits. -/
def recordFailure (key : κ) (now : Nat) : RequestBackoffController κ :=
  let failures :=
    match c key with
    | some state => min (state.consecutiveFailures + 1) (2 ^ 32 - 1)
    | none => 1
  c.set key (some {
    consecutiveFailures := failures
    retryAfter := now + policy.delayForFailure failures
    lastSeen := now })

def recordResult (key : κ) (result : DataProviderRequestResult) (now : Nat) :
    RequestBackoffController κ :=
  match result with
  | .unauthorized => c.recordSuccess key
  | .error => c.recordFailure policy key now
  | _ => c.recordSuccess key

def staleAfter : Nat := (durationMul policy.maxDelay 2).getD policy.maxDelay

def pruneStale (now : Nat) : RequestBackoffController κ := fun key =>
  (c key).filter fun state => ¬ staleAfter policy < now - state.lastSeen

end RequestBackoffController

/-! ## Calls -/

inductive BackoffCall (κ : Type) where
  | canAttempt (key : κ)
  | recordResult (key : κ) (result : DataProviderRequestResult)
  | recordFailure (key : κ)
  | pruneStale
  deriving DecidableEq, Repr

/-- The key a call is about. -/
def BackoffCall.key {κ : Type} : BackoffCall κ → Option κ
  | .canAttempt key => some key
  | .recordResult key _ => some key
  | .recordFailure key => some key
  | .pruneStale => none

def RequestBackoffController.call {κ : Type} [DecidableEq κ] (policy : RequestBackoffPolicy)
    (c : RequestBackoffController κ) (now : Nat) : BackoffCall κ → RequestBackoffController κ
  | .canAttempt key => (c.canAttempt key now).2
  | .recordResult key result => c.recordResult policy key result now
  | .recordFailure key => c.recordFailure policy key now
  | .pruneStale => c.pruneStale policy now

end ForwardProxy.Datastore
