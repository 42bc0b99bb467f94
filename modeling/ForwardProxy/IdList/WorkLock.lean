/-
ForwardProxy.IdList.WorkLock — the claim on one list (`work_lock.rs`, and
`ClaimRenewal` in `worker/run.rs`).

Redis holds the id of the holder under the lock key, with a TTL. The two
Lua scripts compare that id with the caller's, so what they protect is the
HOLDER; several acquisitions of one process have one id, since a process
makes its id once (`new_holder_id`).

A `ClaimRenewal` is one acquisition. Its release is a command like any
other: `stop_and_release` awaits it and `Drop` spawns it, and in both
cases other commands may be executed before it is. `LockState` therefore
counts the releases sent off and not executed. `history` is kept for the
statements only: which acquisitions there were, and when the key went.

`WorkLease` puts a clock to it. The rest of the development takes the
claim's replies as choices of the environment (`Redis`), so nothing else
depends on this module.
-/
import Mathlib.Tactic.Common

namespace ForwardProxy.IdList

/-- The value under the lock key: the holder and the seconds left. -/
abbrev LockValue : Type := Option (String × Nat)

structure RedisWorkLock where
  holderId : String
  deriving DecidableEq, Repr

namespace RedisWorkLock

variable (lock : RedisWorkLock)

/-- `SET key holder NX EX ttl`. Redis refuses a TTL of 0. -/
def tryAcquire (value : LockValue) (ttl : Nat) : Bool × LockValue :=
  match value with
  | some held => (false, some held)
  | none => if 0 < ttl then (true, some (lock.holderId, ttl)) else (false, none)

/-- `RENEW_SCRIPT`. EXPIRE with a TTL of 0 deletes the key. -/
def renew (value : LockValue) (ttl : Nat) : Bool × LockValue :=
  match value with
  | some (holder, left) =>
    if holder = lock.holderId then (true, if 0 < ttl then some (holder, ttl) else none)
    else (false, some (holder, left))
  | none => (false, none)

/-- `RELEASE_SCRIPT`. -/
def release (value : LockValue) : LockValue :=
  match value with
  | some (holder, left) => if holder = lock.holderId then none else some (holder, left)
  | none => none

end RedisWorkLock

/-- The key `d` seconds later. -/
def elapsed (d : Nat) : LockValue → LockValue
  | some (holder, left) => if left ≤ d then none else some (holder, left - d)
  | none => none

/-- One acquisition. `inFlight` counts its releases that are sent off and
not executed yet. -/
structure ClaimRenewal where
  lock : RedisWorkLock
  ttl : Nat
  stop : Bool := false
  lost : Bool := false
  released : Bool := false
  inFlight : Nat := 0
  deriving DecidableEq, Repr

inductive LockEvent where
  | acquired (acquisition : Nat)
  | gone
  deriving DecidableEq, Repr

/-- The acquisitions are numbered in their order; the newest event is the
first of `history`. -/
structure LockState where
  value : LockValue := none
  claims : List ClaimRenewal := []
  history : List LockEvent := []
  deriving DecidableEq, Repr

/-- Acquisitions since which the key has not gone. -/
def ownersOf : List LockEvent → List Nat
  | [] => []
  | .gone :: _ => []
  | .acquired a :: older => a :: ownersOf older

namespace LockState

variable (st : LockState)

def owners : List Nat := ownersOf st.history

def holder : Option String := st.value.map Prod.fst

/-- The holder id an acquisition was made with. -/
def holderOf (a : Nat) : Option String := (st.claims[a]?).map (·.lock.holderId)

/-- A new value under the key. -/
def setValue (value : LockValue) : LockState :=
  { st with
    value
    history := if st.value.isSome && value.isNone then .gone :: st.history else st.history }

def modifyClaim (a : Nat) (f : ClaimRenewal → ClaimRenewal) : LockState :=
  { st with claims := st.claims.modify a f }

end LockState

inductive LockOp where
  /-- `try_acquire`, and `ClaimRenewal::start` if it succeeds. -/
  | tryAcquire (lock : RedisWorkLock) (ttl : Nat)
  /-- A renewal, by the background task or by `renew_now`. One that is under
  way when the task is stopped is still executed. -/
  | renew (a : Nat)
  /-- `stop_and_release` sends its release, -/
  | stopAndRelease (a : Nat)
  /-- and returns. -/
  | releaseReturned (a : Nat)
  /-- `Drop`: a release is spawned unless one has returned. -/
  | drop (a : Nat)
  /-- A release that was sent off is executed. -/
  | runRelease (a : Nat)
  | elapse (d : Nat)
  deriving DecidableEq, Repr

namespace LockState

def renewClaim (st : LockState) (a : Nat) (c : ClaimRenewal) : LockState :=
  if c.lost then st
  else
    let (held, value) := c.lock.renew st.value c.ttl
    (st.setValue value).modifyClaim a fun c => { c with lost := !held }

def dropClaim (st : LockState) (a : Nat) (c : ClaimRenewal) : LockState :=
  if c.released then st.modifyClaim a fun c => { c with stop := true }
  else st.modifyClaim a fun c =>
    { c with stop := true, released := true, inFlight := c.inFlight + 1 }

def releaseClaim (st : LockState) (a : Nat) (c : ClaimRenewal) : LockState :=
  if c.inFlight = 0 then st
  else (st.setValue (c.lock.release st.value)).modifyClaim a fun c =>
    { c with inFlight := c.inFlight - 1 }

/-- One operation. One on an acquisition that never was does nothing. -/
def exec (st : LockState) : LockOp → LockState
  | .tryAcquire lock ttl =>
    if (lock.tryAcquire st.value ttl).1 then
      { value := (lock.tryAcquire st.value ttl).2
        claims := st.claims ++ [{ lock, ttl }]
        history := .acquired st.claims.length :: st.history }
    else st
  | .renew a => (st.claims[a]?).elim st (st.renewClaim a)
  | .stopAndRelease a => st.modifyClaim a fun c => { c with stop := true, inFlight := c.inFlight + 1 }
  | .releaseReturned a => st.modifyClaim a fun c => { c with released := true }
  | .drop a => (st.claims[a]?).elim st (st.dropClaim a)
  | .runRelease a => (st.claims[a]?).elim st (st.releaseClaim a)
  | .elapse d => st.setValue (elapsed d st.value)

def run (ops : List LockOp) : LockState := ops.foldl exec {}

end LockState

end ForwardProxy.IdList
