/-
ForwardProxy.Datastore.PollSchedule — when the background poll sends its
requests (`background_poll_dispatch.rs`, `background_data_provider.rs`).

A cycle takes the registered contexts that may be asked for, in an order
that changes with the cycle, and launches them: as many at a time as the
config allows, and none before its slot. A request is over when its guard
timeout has passed. The loop sleeps until the instant of the next poll,
which is counted from the last such instant and not from the end of the
cycle.

Times are nanoseconds. Timers go off on time, and what is not a wait takes
no time.
-/
import Mathlib.Data.List.Sort
import ForwardProxy.Datastore.RequestBackoff
import ForwardProxy.Datastore.StreamingExecutor

namespace ForwardProxy.Datastore

open Time

/-! ## The dispatch config -/

def fromMillis (millis : Nat) : Nat := millis * 1000000

def u64Max : Nat := 2 ^ 64 - 1

structure BackgroundPollDispatchConfig where
  maxInFlight : Nat
  itemSpacingMs : Nat
  jitterSeed : BitVec 64
  maxInFlight_pos : 1 ≤ maxInFlight

def cycleJitterMix (pollCycle jitterSeed : BitVec 64) : BitVec 64 :=
  jitterSeed.rotateLeft (pollCycle &&& 63).toNat ^^^ pollCycle * 0x9E3779B97F4A7C15

/-- `keyHash` is what the hasher makes of a key. -/
def dispatchRank {κ : Type} (keyHash : κ → BitVec 64) (requestKey : κ)
    (pollCycle jitterSeed : BitVec 64) : BitVec 64 :=
  keyHash requestKey ^^^ cycleJitterMix pollCycle jitterSeed

namespace BackgroundPollDispatchConfig

def new (maxInFlight itemSpacingMs : Nat) (jitterSeed : BitVec 64) :
    BackgroundPollDispatchConfig where
  maxInFlight := max maxInFlight 1
  itemSpacingMs := itemSpacingMs
  jitterSeed := jitterSeed
  maxInFlight_pos := le_max_right _ _

variable (config : BackgroundPollDispatchConfig)

def backgroundDispatchShapingEnabled (preparedRequestCount : Nat) : Bool :=
  0 < config.itemSpacingMs || config.maxInFlight < preparedRequestCount

def launchSpacing : Nat := fromMillis config.itemSpacingMs

/-- The products and sums saturate at 64 bits. -/
def pollIntervalForCycle (baseInterval : Nat) (pollCycle : BitVec 64) : Nat :=
  let baseIntervalMs := min (max (baseInterval / 1000000) 1) u64Max
  let jitterWindowMs := max (baseIntervalMs / 10) 1
  let jitterBucketCount := min (min (jitterWindowMs * 2) u64Max + 1) u64Max
  let jitterBucket := (cycleJitterMix pollCycle config.jitterSeed).toNat % jitterBucketCount
  let jitterOffsetMs : Int := jitterBucket - jitterWindowMs
  fromMillis (if jitterOffsetMs < 0 then max (baseIntervalMs - jitterOffsetMs.natAbs) 1
    else min (baseIntervalMs + jitterOffsetMs.natAbs) u64Max)

end BackgroundPollDispatchConfig

/-! ## What is prepared -/

structure SdkKeyStoreItem where
  requestContext : AuthorizedRequestContext
  lcut : Nat
  deriving DecidableEq, Repr

/-- When a context may be asked for: the last requests of
`IdlistRequestBuilder`, and the backoff. -/
structure RequestGates where
  lastRequestByKey : AuthorizedRequestContext → Option Nat
  backoff : RequestBackoffController AuthorizedRequestContext

namespace RequestGates

def new : RequestGates := ⟨fun _ => none, .new⟩

variable (gates : RequestGates)

/-- Only the builder of `get_id_lists` says no. -/
def shouldMakeRequest (rc : AuthorizedRequestContext) (now : Nat) : Bool × RequestGates :=
  if rc.path = .v1GetIdLists then
    let asked := { gates with
      lastRequestByKey := Function.update gates.lastRequestByKey rc (some now) }
    match gates.lastRequestByKey rc with
    | some lastRequest => if fromSecs 60 < now - lastRequest then (true, asked) else (false, gates)
    | none => (true, asked)
  else (true, gates)

/-- The checks of an item, one after the other. -/
def prepare (item : SdkKeyStoreItem) (now : Nat) : Bool × RequestGates :=
  let (should, gates) := gates.shouldMakeRequest item.requestContext now
  if should then
    let (can, backoff) := gates.backoff.canAttempt item.requestContext now
    (can, { gates with backoff := backoff })
  else (false, gates)

def prepareAll (now : Nat) :
    List SdkKeyStoreItem → RequestGates → List SdkKeyStoreItem × RequestGates
  | [], gates => ([], gates)
  | item :: items, gates =>
    let (prepared, next) := gates.prepare item now
    let (rest, last) := prepareAll now items next
    (if prepared then item :: rest else rest, last)

end RequestGates

/-- The gates under all that use them, which are polls, foreground fetches
and the ends of requests, with the contexts that have passed the first check
and those that have passed both. -/
structure GateSystem where
  clock : Nat
  gates : RequestGates
  asked : List (AuthorizedRequestContext × Nat)
  prepared : List (AuthorizedRequestContext × Nat)

def GateSystem.new : GateSystem := ⟨0, .new, [], []⟩

/-- The checks of an item, now. -/
def GateSystem.prepare (s : GateSystem) (item : SdkKeyStoreItem) : GateSystem :=
  let should := (s.gates.shouldMakeRequest item.requestContext s.clock).1
  let (can, gates) := s.gates.prepare item s.clock
  { s with
    gates := gates
    asked := if should then (item.requestContext, s.clock) :: s.asked else s.asked
    prepared := if can then (item.requestContext, s.clock) :: s.prepared else s.prepared }

inductive GateStep (policy : RequestBackoffPolicy) : GateSystem → GateSystem → Prop where
  | tick {s : GateSystem} (clock : Nat) (later : s.clock ≤ clock) :
    GateStep policy s { s with clock := clock }
  | prepare {s : GateSystem} (item : SdkKeyStoreItem) : GateStep policy s (s.prepare item)
  | backoff {s : GateSystem} (call : BackoffCall AuthorizedRequestContext) :
    GateStep policy s { s with
      gates := { s.gates with backoff := s.gates.backoff.call policy s.clock call } }

abbrev GateReach (policy : RequestBackoffPolicy) : GateSystem → Prop :=
  Relation.ReflTransGen (GateStep policy) .new

/-- `sort_by_key` keeps the order of items of one rank. -/
def dispatchOrder (config : BackgroundPollDispatchConfig)
    (keyHash : AuthorizedRequestContext → BitVec 64) (pollCycle : BitVec 64)
    (prepared : List SdkKeyStoreItem) : List SdkKeyStoreItem :=
  if config.backgroundDispatchShapingEnabled prepared.length then
    prepared.insertionSort fun a b =>
      dispatchRank keyHash a.requestContext pollCycle config.jitterSeed ≤
        dispatchRank keyHash b.requestContext pollCycle config.jitterSeed
  else prepared

/-! ## A cycle -/

structure PreparedFetchExecutionConfig where
  maxInFlight : Nat
  launchSpacing : Nat
  requestGuardTimeout : Nat
  maxInFlight_pos : 1 ≤ maxInFlight

/-- The executor with a clock. Tasks and launches have the instant at which
the task was spawned. -/
structure TimedExecutor (α : Type) where
  pendingItems : List α
  inFlight : List (α × Nat)
  attemptedCount : Nat
  phase : ExecPhase
  launches : List (α × Nat)
  reports : List JoinOutcome
  now : Nat
  nextLaunchAt : Nat
  deriving DecidableEq, Repr

/-- The instant of the launch, and the earliest one of the next. -/
def waitForLaunchSlot (nextLaunchAt launchSpacing now : Nat) : Nat × Nat :=
  if launchSpacing = 0 then (now, nextLaunchAt)
  else (max nextLaunchAt now, max nextLaunchAt now + launchSpacing)

variable {α : Type}

namespace TimedExecutor

def new (preparedRequests : List α) (now : Nat) : TimedExecutor α where
  pendingItems := preparedRequests
  inFlight := []
  attemptedCount := 0
  phase := .filling
  launches := []
  reports := []
  now := now
  nextLaunchAt := now

def spawn (s : TimedExecutor α) (item : α) (rest : List α) (slot : Nat × Nat) : TimedExecutor α :=
  { s with
    pendingItems := rest
    inFlight := s.inFlight ++ [(item, slot.1)]
    attemptedCount := s.attemptedCount + 1
    launches := s.launches ++ [(item, slot.1)]
    now := slot.1
    nextLaunchAt := slot.2 }

def joined (s : TimedExecutor α) (others : List (α × Nat)) (outcome : JoinOutcome) (now : Nat) :
    TimedExecutor α :=
  { s with inFlight := others, phase := .filling, reports := s.reports ++ [outcome], now := now }

/-- The executor without the clock. -/
def untimed (s : TimedExecutor α) : Executor α where
  pendingItems := s.pendingItems
  inFlight := s.inFlight.map Prod.fst
  attemptedCount := s.attemptedCount
  phase := s.phase
  spawned := s.launches.map Prod.fst
  reports := s.reports

end TimedExecutor

/-- A task is joined once one has ended, and each ends by its timeout. -/
inductive TimedStep (config : PreparedFetchExecutionConfig) :
    TimedExecutor α → TimedExecutor α → Prop where
  | spawn {s : TimedExecutor α} {item : α} {rest : List α} (phase : s.phase = .filling)
    (room : s.inFlight.length < config.maxInFlight) (next : s.pendingItems = item :: rest) :
    TimedStep config s
      (s.spawn item rest (waitForLaunchSlot s.nextLaunchAt config.launchSpacing s.now))
  | full {s : TimedExecutor α} (phase : s.phase = .filling)
    (noRoom : ¬ s.inFlight.length < config.maxInFlight) :
    TimedStep config s { s with phase := .waiting }
  | exhausted {s : TimedExecutor α} (phase : s.phase = .filling)
    (room : s.inFlight.length < config.maxInFlight) (next : s.pendingItems = []) :
    TimedStep config s { s with phase := .waiting }
  | finish {s : TimedExecutor α} (phase : s.phase = .waiting) (empty : s.inFlight = []) :
    TimedStep config s { s with phase := .ended }
  | join {s : TimedExecutor α} {before after : List (α × Nat)} {task : α × Nat}
    (outcome : JoinOutcome) (endsAt : Nat) (phase : s.phase = .waiting)
    (running : s.inFlight = before ++ task :: after) (later : s.now ≤ endsAt)
    (soon : ∀ other ∈ s.inFlight, endsAt ≤ max s.now (other.2 + config.requestGuardTimeout)) :
    TimedStep config s (s.joined (before ++ after) outcome endsAt)

def TimedReach (config : PreparedFetchExecutionConfig) (items : List α) (start : Nat) :
    TimedExecutor α → Prop :=
  Relation.ReflTransGen (TimedStep config) (.new items start)

/-! ## The loop -/

/-- A cycle that is over. -/
structure PollRecord where
  startedAt : Nat
  endedAt : Nat
  prepared : List SdkKeyStoreItem
  launches : List (SdkKeyStoreItem × Nat)
  deriving DecidableEq, Repr

structure PollLoop where
  now : Nat
  nextPollAt : Nat
  pollCycle : BitVec 64
  cycles : List PollRecord
  deriving DecidableEq, Repr

def PollLoop.new (now : Nat) : PollLoop := ⟨now, now, 0, []⟩

/-- `start_background_fetch_interval`, with what it is called with. -/
structure PollConfig where
  dispatch : BackgroundPollDispatchConfig
  pollingIntervalInS : UInt64
  requestGuardTimeout : Nat
  keyHash : AuthorizedRequestContext → BitVec 64

namespace PollConfig

variable (config : PollConfig)

def basePollInterval : Nat := fromSecs (max config.pollingIntervalInS.toNat 1)

def execution : PreparedFetchExecutionConfig where
  maxInFlight := config.dispatch.maxInFlight
  launchSpacing := config.dispatch.launchSpacing
  requestGuardTimeout := config.requestGuardTimeout
  maxInFlight_pos := config.dispatch.maxInFlight_pos

end PollConfig

/-- A poll of what is prepared then, whatever that is. -/
inductive PollLoopStep (config : PollConfig) : PollLoop → PollLoop → Prop where
  | poll {l : PollLoop} (prepared : List SdkKeyStoreItem) {s : TimedExecutor SdkKeyStoreItem}
    (run : TimedReach config.execution
      (dispatchOrder config.dispatch config.keyHash l.pollCycle prepared)
      (max l.nextPollAt l.now) s)
    (ended : s.phase = .ended) :
    PollLoopStep config l {
      now := s.now
      nextPollAt := l.nextPollAt + config.dispatch.pollIntervalForCycle config.basePollInterval
        (l.pollCycle + 1)
      pollCycle := l.pollCycle + 1
      cycles := l.cycles ++ [⟨max l.nextPollAt l.now, s.now, prepared, s.launches⟩] }

end ForwardProxy.Datastore
