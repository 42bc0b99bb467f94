/-
ForwardProxy.Datastore.LogEventStore — the de-duplication of exposure
events (`log_event_store.rs`, `post_log_event`).

All requests share one set of hashed keys. A request looks up and records
the keys of its events, then sends the events that are left; its client has
been answered before that, and nothing is done with the outcome of the
send. Requests run on threads of their own, so the operations on the set
interleave: its size is read, it may be cleared, and a key is inserted.

A JSON value is its text, and an object the list of its fields; the parts
of events and requests that are only passed on are left out. The hash is a
parameter, as is the type of hashes. `history` is what has happened so far,
the latest first.
-/
import Mathlib.Data.Finset.Card
import ForwardProxy.Effect.Prog

namespace ForwardProxy.Datastore

open Effect

/-! ## Events -/

structure User where
  userId : Option String
  /-- The fields, if it is an object. -/
  customIds : Option (List (String × String))
  deriving DecidableEq, Repr

inductive EventName where
  | configExposure
  | gateExposure
  | other (eventName : String)
  deriving DecidableEq, Repr

structure StatsigMetadata where
  stableId : Option String
  deriving DecidableEq, Repr

structure LogEvent where
  eventName : EventName
  user : Option User
  time : Option Nat
  metadata : Option (List (String × String))
  statsigMetadata : Option StatsigMetadata
  deriving DecidableEq, Repr

def LogEvent.getMetadata (event : LogEvent) (key : String) : String :=
  (event.metadata.bind fun m => m.lookup key).getD ""

inductive PossiblyLogEvent where
  | validLogEvent (event : LogEvent)
  | invalidLogEvent
  deriving DecidableEq, Repr

structure LogEventRequest where
  events : List PossiblyLogEvent
  statsigMetadata : Option StatsigMetadata
  deriving DecidableEq, Repr

/-! ## Keys -/

/-- The last instant that can be represented, in milliseconds. -/
def maxTimestampMillis : Nat := 8210266876799999

def roundToMinute (millis : Nat) : Nat := millis / 60000 * 60000

/-- The time of an event that has none, or one out of range, is the time at
which it is looked at. -/
def eventMinute (time : Option Nat) (now : Nat) : Nat :=
  roundToMinute ((time.filter fun t => t ≤ maxTimestampMillis).getD now)

def computeKey (sdkKey : String) (event : LogEvent) (globalMetadata : Option StatsigMetadata)
    (now : Nat) : Option String :=
  let userId := (event.user.bind fun user => user.userId).getD ""
  let stableId := ((event.statsigMetadata.bind fun m => m.stableId).orElse fun _ =>
    globalMetadata.bind fun m => m.stableId).getD ""
  let customIds := (event.user.bind fun user => user.customIds).getD []
  let exposureKey := "k:" ++ sdkKey ++ ";u:" ++ userId ++ ";s:" ++ stableId ++ ";" ++
    String.join (customIds.map fun (k, v) => k ++ ":" ++ v ++ ";")
  let time := ";t" ++ toString (eventMinute event.time now)
  match event.eventName with
  | .other _ => none
  | .configExposure =>
    some (exposureKey ++ "n:$" ++ event.getMetadata "config" ++ ";r:" ++
      event.getMetadata "ruleID" ++ time)
  | .gateExposure =>
    some (exposureKey ++ "n:" ++ event.getMetadata "gate" ++ ";r:" ++
      event.getMetadata "ruleID" ++ ";v:" ++ event.getMetadata "gateValue" ++ time)

/-! ## The store -/

inductive SendOutcome where
  | accepted
  /-- A response with a status that is no success. -/
  | refused (status : Nat)
  | transportError
  deriving DecidableEq, Repr

/-- What the requests have done, each named by the number of its batch. -/
inductive EventFact where
  /-- A key was looked up and recorded; it was new, or it was found. -/
  | lookedUp (batch : Nat) (key : String) (new : Bool)
  | cleared
  | sent (batch : Nat) (data : LogEventRequest) (outcome : SendOutcome)
  deriving DecidableEq, Repr

structure EventServer (η : Type) where
  dedupeCache : Finset η
  history : List EventFact

inductive EventCmd where
  | now
  | len
  | clear
  | insert (batch : Nat) (key : String)
  | send (batch : Nat) (data : LogEventRequest)
  deriving DecidableEq, Repr

/-- An insertion says whether the key is new. -/
def EventCmd.Reply : EventCmd → Type
  | .now => Nat
  | .len => Nat
  | .clear => Unit
  | .insert _ _ => Bool
  | .send _ _ => SendOutcome

section

variable {η : Type} [DecidableEq η] (hash : String → η)

namespace EventServer

def new : EventServer η := ⟨∅, []⟩

def insert (s : EventServer η) (batch : Nat) (key : String) : Bool × EventServer η :=
  let new := decide (hash key ∉ s.dedupeCache)
  (new, ⟨Insert.insert (hash key) s.dedupeCache, .lookedUp batch key new :: s.history⟩)

end EventServer

def eventServer : Handler EventCmd EventCmd.Reply (EventServer η) where
  step s c r s' :=
    match c, r with
    | .now, _ => s' = s
    | .len, n => n = s.dedupeCache.card ∧ s' = s
    | .clear, _ => s' = ⟨∅, .cleared :: s.history⟩
    | .insert batch key, new => s.insert hash batch key = (new, s')
    | .send batch data, outcome =>
      s' = { s with history := .sent batch data outcome :: s.history }

/-- The outcomes of the sends are read from the script. -/
def eventRunner : Runner (eventServer hash) (List SendOutcome) where
  next s c w :=
    match c with
    | .now => some ((0 : Nat), s, w)
    | .len => some (s.dedupeCache.card, s, w)
    | .clear => some ((), ⟨∅, .cleared :: s.history⟩, w)
    | .insert batch key =>
      some ((s.insert hash batch key).1, (s.insert hash batch key).2, w)
    | .send batch data =>
      match w with
      | outcome :: w =>
        some (outcome, { s with history := .sent batch data outcome :: s.history }, w)
      | [] => none
  sound := by
    intro s c w r s' w' h
    cases c with
    | now =>
      cases h
      rfl
    | len =>
      cases h
      exact ⟨rfl, rfl⟩
    | clear =>
      cases h
      rfl
    | insert batch key =>
      cases h
      rfl
    | send batch data =>
      cases w with
      | nil => simp at h
      | cons outcome w =>
        cases h
        rfl

end

/-! ## A request -/

abbrev EventProg (α : Type) : Type := Prog EventCmd EventCmd.Reply Empty α

def utcNow : EventProg Nat := Prog.cmd EventCmd.now

def cacheLen : EventProg Nat := Prog.cmd EventCmd.len

def cacheClear : EventProg Unit := Prog.cmd EventCmd.clear

def cacheInsert (batch : Nat) (key : String) : EventProg Bool :=
  Prog.cmd (EventCmd.insert batch key)

def sendBatch (batch : Nat) (data : LogEventRequest) : EventProg SendOutcome :=
  Prog.cmd (EventCmd.send batch data)

namespace LogEventStore

variable (dedupeCacheLimit : Nat) (batch : Nat)

/-- True if the event is new. -/
def checkKey (event : String) : EventProg Bool := do
  let size ← cacheLen
  Prog.when (decide (dedupeCacheLimit ≤ size)) cacheClear
  cacheInsert batch event

/-- Whether the event stays in its batch. -/
def processEvent (sdkKey : String) (globalMetadata : Option StatsigMetadata) :
    PossiblyLogEvent → EventProg Bool
  | .validLogEvent event => do
    let now ← utcNow
    match computeKey sdkKey event globalMetadata now with
    | some key => checkKey dedupeCacheLimit batch key
    | none => .pure true
  | .invalidLogEvent => .pure false

def dedupeEventsForSdkKey (sdkKey : String) (data : LogEventRequest) :
    EventProg LogEventRequest := do
  let retained ← Prog.fold (fun retained event => do
    let keep ← processEvent dedupeCacheLimit batch sdkKey data.statsigMetadata event
    .pure (if keep then retained ++ [event] else retained)) [] data.events
  .pure { data with events := retained }

/-- A response is a success here whatever its status. -/
def logEvent (sdkKey : String) (data : LogEventRequest) : EventProg (Except Nat Unit) := do
  let repackaged ← dedupeEventsForSdkKey dedupeCacheLimit batch sdkKey data
  let outcome ← sendBatch batch repackaged
  match outcome with
  | .transportError => .pure (.error 500)
  | .accepted | .refused _ => .pure (.ok ())

end LogEventStore

/-- The part of `post_log_event` after the answer to its client. -/
def postLogEvent (dedupeCacheLimit batch : Nat) (sdkKey : String) (data : LogEventRequest) :
    EventProg Unit := do
  let _ ← LogEventStore.logEvent dedupeCacheLimit batch sdkKey data
  .pure ()

end ForwardProxy.Datastore
