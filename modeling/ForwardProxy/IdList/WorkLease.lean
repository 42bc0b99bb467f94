/-
ForwardProxy.IdList.WorkLease — the claim on one list, against a clock
(`worker/run.rs`, `work_lock.rs`).

The background task of a `ClaimRenewal` sleeps for a third of the TTL,
renews, and sleeps again, until it is stopped or a renewal fails. What
happens between the end of a sleep and the renewal in Redis may take up to
`slack` seconds; that is the only assumption about time, the condition of
`elapse`. All claims have one TTL, `IDLIST_LOCK_TTL_IN_S`.

An id may acquire again when the releases of its earlier acquisitions have
returned and none of them is on its way. The source waits for the release
of a run that ends; one that is cancelled leaves its release to a task of
its own (`late_release_of_same_process`).

A SET whose reply is lost is left out: it leaves a key that no run takes
for its own, so that it can only keep others away until it expires.
-/
import Mathlib.Logic.Relation
import Mathlib.Logic.Function.Basic
import ForwardProxy.IdList.WorkLock

namespace ForwardProxy.IdList

/-- The sleep of the background task, in seconds. -/
def renewInterval (ttl : Nat) : Nat := max (ttl / 3) 1

namespace ClaimRenewal

/-- The run that holds the claim is at work, and no renewal has failed. -/
def Live (c : ClaimRenewal) : Prop := c.stop = false ∧ c.lost = false

/-- The release has returned, and nothing of it is left. -/
def Settled (c : ClaimRenewal) : Prop := c.released = true ∧ c.inFlight = 0

instance (c : ClaimRenewal) : Decidable c.Live := inferInstanceAs (Decidable (_ ∧ _))

instance (c : ClaimRenewal) : Decidable c.Settled := inferInstanceAs (Decidable (_ ∧ _))

end ClaimRenewal

structure WorkLease where
  lock : LockState
  now : Nat
  /-- When an acquisition was last seen to by Redis. -/
  renewedAt : Nat → Nat

def WorkLease.start : WorkLease := ⟨{}, 0, fun _ => 0⟩

inductive LeaseStep (ttl slack : Nat) : WorkLease → WorkLease → Prop where
  | tryAcquire (l : WorkLease) (lock : RedisWorkLock)
    (settled : ∀ c ∈ l.lock.claims, c.lock.holderId = lock.holderId → c.Settled) :
    LeaseStep ttl slack l
      { l with
        lock := l.lock.exec (.tryAcquire lock ttl)
        renewedAt := Function.update l.renewedAt l.lock.claims.length l.now }
  /-- A renewal, by the background task or by `renew_now`. -/
  | renew (l : WorkLease) (a : Nat) :
    LeaseStep ttl slack l
      { l with
        lock := l.lock.exec (.renew a)
        renewedAt := Function.update l.renewedAt a l.now }
  /-- A renewal of the background task that cannot be sent, or whose reply
  does not come. -/
  | renewError (l : WorkLease) (a : Nat) :
    LeaseStep ttl slack l
      { l with lock := l.lock.modifyClaim a fun c => { c with lost := true } }
  | stopAndRelease (l : WorkLease) (a : Nat) (c : ClaimRenewal)
    (hclaim : l.lock.claims[a]? = some c) (working : c.stop = false) :
    LeaseStep ttl slack l { l with lock := l.lock.exec (.stopAndRelease a) }
  | releaseReturned (l : WorkLease) (a : Nat) (c : ClaimRenewal)
    (hclaim : l.lock.claims[a]? = some c) (stopped : c.stop = true) :
    LeaseStep ttl slack l { l with lock := l.lock.exec (.releaseReturned a) }
  | drop (l : WorkLease) (a : Nat) :
    LeaseStep ttl slack l { l with lock := l.lock.exec (.drop a) }
  | runRelease (l : WorkLease) (a : Nat) :
    LeaseStep ttl slack l { l with lock := l.lock.exec (.runRelease a) }
  /-- A release that does not reach Redis. -/
  | releaseError (l : WorkLease) (a : Nat) :
    LeaseStep ttl slack l
      { l with lock := l.lock.modifyClaim a fun c => { c with inFlight := c.inFlight - 1 } }
  | elapse (l : WorkLease) (d : Nat)
    (timely : ∀ a c, l.lock.claims[a]? = some c → c.Live →
      l.now + d ≤ l.renewedAt a + renewInterval ttl + slack) :
    LeaseStep ttl slack l { l with lock := l.lock.exec (.elapse d), now := l.now + d }

def LeaseRun (ttl slack : Nat) : WorkLease → WorkLease → Prop :=
  Relation.ReflTransGen (LeaseStep ttl slack)

end ForwardProxy.IdList
