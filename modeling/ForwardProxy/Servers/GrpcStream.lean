/-
ForwardProxy.Servers.GrpcStream — the streams of configs for one context
(`grpc_server.rs`, `streaming_channel.rs`, `http_data_provider_observer.rs`).

An answer with data is given to the observers that are registered at that
moment. The `ConfigSpecStore` is one that the notifier waits for; the
channel of the streams is updated by a task of its own, before or after
that. So an update is stored and broadcast in two steps, in either order.
The step of the `ConfigSpecStore` is one step here.

A stream reads the config that is stored, subscribes to the channel, which
it creates if it is the first, and goes on to what is received. Creation
and subscription happen under the lock of the channel cache; the channel
is registered as an observer before the subscription.

The stream of bytes to the client, the count of connections and metrics
are left out. A stream notices that its client is gone when it sends.
-/
import ForwardProxy.Effect.Broadcast
import ForwardProxy.Datastore.ConfigSpecStore

namespace ForwardProxy.Servers

open Effect Datastore

/-! ## The channel -/

/-- `none` ends the streams when the proxy shuts down. -/
abbrev StreamPayload : Type := Option (ResponsePayload × Nat)

structure StreamingChannel where
  lastUpdated : Nat
  sender : Broadcast StreamPayload
  deriving DecidableEq, Repr

namespace StreamingChannel

def new : StreamingChannel := ⟨0, ⟨1, []⟩⟩

/-- The step of the channel for an answer with data. Without a receiver
nothing is sent, and the lcut is not recorded. -/
def update (channel : StreamingChannel) (receivers : Bool) (lcut : Nat) (body : ResponsePayload) :
    StreamingChannel :=
  if lcut > channel.lastUpdated && receivers then
    ⟨lcut, channel.sender.send (some (body, lcut))⟩
  else channel

end StreamingChannel

/-! ## Streams -/

inductive SpecText where
  | noUpdate
  | config (data : List UInt8)
  deriving DecidableEq, Repr

structure ConfigSpecResponse where
  spec : SpecText
  lastUpdated : Nat
  deriving DecidableEq, Repr

/-- The answer of `get_config_spec` when a config is stored. -/
def configSpecResponse (sinceTime : Nat) (stored : ConfigSpecForCompany) : ConfigSpecResponse where
  spec := if stored.lcut > sinceTime then .config stored.config.data else .noUpdate
  lastUpdated := stored.lcut

/-- `next` is the position of the receiver. -/
inductive StreamPhase where
  | requested (sinceTime : Nat)
  | fetched (init : ConfigSpecResponse)
  /-- The channel has been created and is an observer. -/
  | registered (init : ConfigSpecResponse)
  | subscribed (init : ConfigSpecResponse) (next : Nat)
  | listening (next latestLcut : Nat)
  /-- The receiver has reported an error. -/
  | lagged (latestLcut : Nat)
  | ended
  deriving DecidableEq, Repr

structure Stream where
  phase : StreamPhase
  sent : List ConfigSpecResponse
  deriving DecidableEq, Repr

/-- The stream holds a receiver of the channel. -/
def Stream.receiving (stream : Stream) : Bool :=
  match stream.phase with
  | .subscribed _ _ | .listening _ _ | .lagged _ => true
  | _ => false

def Stream.isRegistering (stream : Stream) : Bool :=
  match stream.phase with
  | .registered _ => true
  | _ => false

/-! ## The server -/

/-- An answer with data, on its way to the observers. -/
structure ConfigUpdate where
  lcut : Nat
  body : ResponsePayload
  /-- The channel was registered when the observers were read. -/
  observed : Bool
  stored : Bool
  /-- The step of the channel is over. -/
  broadcast : Bool
  deriving DecidableEq, Repr

structure GrpcServer where
  stored : Option ConfigSpecForCompany
  channel : Option StreamingChannel
  updates : List ConfigUpdate
  streams : List Stream

def GrpcServer.new : GrpcServer := ⟨none, none, [], []⟩

inductive StreamEvent where
  | fetch
  | register
  | subscribe
  | sendInit
  | recv
  | resubscribe
  /-- Nothing is received for 30 seconds. -/
  | timeout
  | disconnect
  deriving DecidableEq, Repr

inductive GrpcEvent where
  | notify (lcut : Nat) (body : ResponsePayload)
  | store (i : Nat)
  | broadcast (i : Nat)
  | request (sinceTime : Nat)
  | stream (j : Nat) (event : StreamEvent)
  | shutdown
  deriving DecidableEq, Repr

namespace GrpcServer

variable (s : GrpcServer)

def hasReceivers : Bool := s.streams.any Stream.receiving

/-- A stream that creates the channel holds the lock of the cache. -/
def locked : Bool := s.streams.any Stream.isRegistering

/-- `ConfigSpecStore::update`. -/
def storeSpec (lcut : Nat) (body : ResponsePayload) : Option ConfigSpecForCompany :=
  match s.stored with
  | none => some ⟨lcut, body⟩
  | some spec => if lcut > spec.lcut then some ⟨lcut, body⟩ else some spec

/-- One step of `stream_config_spec`; `none` if it is not the turn of this
step. After an error the stream subscribes again. -/
def streamNext (stream : Stream) : StreamEvent → Option Stream
  | .fetch =>
    match stream.phase with
    | .requested sinceTime =>
      match s.stored with
      | some stored => some { stream with phase := .fetched (configSpecResponse sinceTime stored) }
      | none => some { stream with phase := .ended }
    | _ => none
  | .register =>
    match stream.phase, s.channel with
    | .fetched init, none => some { stream with phase := .registered init }
    | _, _ => none
  | .subscribe =>
    match stream.phase, s.channel with
    | .fetched init, some channel =>
      if s.locked then none
      else some { stream with phase := .subscribed init channel.sender.subscribe }
    | .registered init, some channel =>
      some { stream with phase := .subscribed init channel.sender.subscribe }
    | _, _ => none
  | .sendInit =>
    match stream.phase with
    | .subscribed init next => some ⟨.listening next init.lastUpdated, stream.sent ++ [init]⟩
    | _ => none
  | .recv =>
    match stream.phase, s.channel with
    | .listening next latestLcut, some channel =>
      match channel.sender.recv next with
      | .pending => none
      | .lagged => some { stream with phase := .lagged latestLcut }
      | .value (some (data, lcut)) =>
        some ⟨.listening (next + 1) lcut, stream.sent ++ [⟨.config data.data, lcut⟩]⟩
      | .value none => some { stream with phase := .ended }
    | _, _ => none
  | .resubscribe =>
    match stream.phase, s.channel with
    | .lagged latestLcut, some channel =>
      some { stream with phase := .listening channel.sender.subscribe latestLcut }
    | _, _ => none
  | .timeout =>
    match stream.phase with
    | .listening next latestLcut =>
      some ⟨.listening next latestLcut, stream.sent ++ [⟨.noUpdate, latestLcut⟩]⟩
    | _ => none
  | .disconnect =>
    match stream.phase with
    | .listening _ _ => some { stream with phase := .ended }
    | _ => none

def exec : GrpcEvent → Option GrpcServer
  | .notify lcut body =>
    some { s with updates := s.updates ++ [⟨lcut, body, s.channel.isSome, false, false⟩] }
  | .store i =>
    match s.updates[i]? with
    | some update =>
      if update.stored then none
      else some { s with
        stored := s.storeSpec update.lcut update.body
        updates := s.updates.set i { update with stored := true } }
    | none => none
  | .broadcast i =>
    match s.updates[i]?, s.channel with
    | some update, some channel =>
      if update.observed && !update.broadcast then
        some { s with
          channel := some (channel.update s.hasReceivers update.lcut update.body)
          updates := s.updates.set i { update with broadcast := true } }
      else none
    | _, _ => none
  | .request sinceTime => some { s with streams := s.streams ++ [⟨.requested sinceTime, []⟩] }
  | .stream j event =>
    match s.streams[j]? with
    | some stream =>
      (s.streamNext stream event).map fun stream' =>
        { s with
          streams := s.streams.set j stream'
          channel := if event = .register then some StreamingChannel.new else s.channel }
    | none => none
  | .shutdown =>
    match s.channel with
    | some channel =>
      if s.locked then none
      else if s.hasReceivers then
        some { s with channel := some { channel with sender := channel.sender.send none } }
      else some s
    | none => some s

/-- The events, each where the guard admits it. -/
def run (guard : GrpcServer → GrpcEvent → Bool) : GrpcServer → List GrpcEvent → Option GrpcServer
  | s, [] => some s
  | s, event :: events =>
    if guard s event then (s.exec event).bind fun s' => run guard s' events else none

end GrpcServer

end ForwardProxy.Servers
