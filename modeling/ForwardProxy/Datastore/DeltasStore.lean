/-
ForwardProxy.Datastore.DeltasStore — the cached deltas of every SDK key,
and the combined delta a client is sent (`deltas_store.rs`).

The messages and the enumeration of envelope kinds are generated from a
proto file at build time, and the compression is that of two crates; both
are the parameter `SpecsCodec`. Of a top-level message the store reads the
time only.

The deltas are kept per SDK key. The since-time a poll sends is kept per
request context, and one SDK key may have several: the encodings and the
capabilities are part of a context.

`System` is the store with the polls that have been sent and not answered.
A poll reads its since-time from the `SdkKeyStore`; the answer to it is an
`update` call with that since-time, at any later time.
-/
import Mathlib.Logic.Relation
import ForwardProxy.Datastore.SdkKeyStore

namespace ForwardProxy.Datastore

/-! ## Messages -/

/-- The kinds the store tells apart; an envelope may carry any number. -/
inductive SpecsEnvelopeKind where
  | topLevel
  | copyPrev
  | checksums
  | done
  deriving DecidableEq, Repr

structure SpecsEnvelope where
  kind : Int
  name : String
  checksum : String
  data : Option (List UInt8)
  deriving DecidableEq, Repr

structure SpecsTopLevel where
  time : Nat
  deriving DecidableEq, Repr

/-- The generated messages and the decompressors. -/
structure SpecsCodec where
  /-- The number of a kind, `kind as i32`. -/
  number : SpecsEnvelopeKind → Int
  /-- `SpecsEnvelope::decode_length_delimited`, with what is left of the cursor. -/
  decodeLengthDelimited : List UInt8 → Option (SpecsEnvelope × List UInt8)
  /-- `SpecsEnvelope::decode`. -/
  decodeEnvelope : List UInt8 → Option SpecsEnvelope
  /-- `SpecsTopLevel::decode`. -/
  decodeTopLevel : List UInt8 → Option SpecsTopLevel
  /-- `SpecsEnvelope::encode_length_delimited`. -/
  encodeLengthDelimited : SpecsEnvelope → Option (List UInt8)
  brotliDecompress : List UInt8 → Option (List UInt8)
  gzipDecompress : List UInt8 → Option (List UInt8)

structure DeltaCacheEntry where
  sinceTimeRequested : Nat
  lcut : Nat
  topLevel : SpecsTopLevel
  envelopes : List SpecsEnvelope
  deriving DecidableEq, Repr

section Codec

variable (codec : SpecsCodec)

/-! ## From a payload to its messages -/

def decompress (payload : ResponsePayload) : Option (List UInt8) :=
  match payload.encoding with
  | .brotli | .statsigBrotli => codec.brotliDecompress payload.data
  | .gzip => codec.gzipDecompress payload.data
  | .plainText => some payload.data
  | _ => none

/-- The loop of `decode_envelopes`. It ends when the cursor is empty, when
a message does not decode, or when a message takes no bytes; the payload
has as many bytes as the loop can have rounds. -/
def decodeEnvelopesFrom (payload : List UInt8) :
    Nat → List UInt8 → List SpecsEnvelope → Option (List SpecsEnvelope)
  | 0, _, envelopes => some envelopes
  | rounds + 1, cursor, envelopes =>
    if cursor.isEmpty then some envelopes
    else
      match codec.decodeLengthDelimited cursor with
      | some (envelope, rest) =>
        if rest.length = cursor.length then some (envelopes ++ [envelope])
        else decodeEnvelopesFrom payload rounds rest (envelopes ++ [envelope])
      | none =>
        -- the payload may be a single message without a length
        if envelopes.isEmpty then (codec.decodeEnvelope payload).map fun e => [e]
        else none

def decodeEnvelopes (payload : List UInt8) : Option (List SpecsEnvelope) :=
  decodeEnvelopesFrom codec payload payload.length payload []

def parsePayloadToProtos (payload : ResponsePayload) :
    Option (List SpecsEnvelope × SpecsTopLevel) := do
  if !payload.useProto then none
  let decompressed ← decompress codec payload
  let envelopes ← decodeEnvelopes codec decompressed
  let inEnvelope := do
    let envelope ← envelopes.find? fun e => e.kind = codec.number .topLevel
    let data ← envelope.data
    codec.decodeTopLevel data
  let topLevel ← inEnvelope <|> codec.decodeTopLevel decompressed
  return (envelopes, topLevel)

/-! ## From deltas to a payload -/

def isMetaEnvelope (kind : Int) : Bool :=
  kind = codec.number .done || kind = codec.number .copyPrev || kind = codec.number .topLevel
    || kind = codec.number .checksums

/-- `write_envelope` for every envelope; the first that fails ends it. -/
def writeEnvelopes (envelopes : List SpecsEnvelope) : Option (List UInt8) := do
  let written ← envelopes.mapM codec.encodeLengthDelimited
  return written.flatten

/-- The control envelopes of the latest delta, then the data of all deltas
from the earliest on, then the checksums and the end of the latest. -/
def assembleEnvelopesInDeltaOrder (selected : List DeltaCacheEntry) : Option (List UInt8) :=
  match selected.getLast? with
  | none => some []
  | some last => do
    let control ← writeEnvelopes codec <| last.envelopes.filter fun e =>
      isMetaEnvelope codec e.kind && e.kind ≠ codec.number .checksums
        && e.kind ≠ codec.number .done
    let data ← writeEnvelopes codec <| selected.flatMap fun delta =>
      delta.envelopes.filter fun e => !isMetaEnvelope codec e.kind
    let closing ← writeEnvelopes codec <| last.envelopes.filter fun e =>
      e.kind = codec.number .checksums || e.kind = codec.number .done
    return control ++ data ++ closing

end Codec

/-! ## The store -/

inductive DeltaProtoBuildResult where
  | sdkKeyNotRegistered
  | noCachedDeltas
  | sinceTimeTooOld (earliestSinceTime : Nat)
  | noUpdates (lcut : Nat)
  | combined (lcut : Nat) (payload : List UInt8)
  | serializationFailed
  deriving DecidableEq, Repr

/-- A missing SDK key and one without deltas read the same everywhere. -/
structure DeltasStore where
  store : String → List DeltaCacheEntry
  sdkKeyStore : SdkKeyStore
  maxResponsesToPersist : Nat
  max_pos : 0 < maxResponsesToPersist

def toDeltaRequestContext (rc : AuthorizedRequestContext) : AuthorizedRequestContext :=
  (AuthorizedRequestContext.new rc.sdkKey .v2DownloadConfigSpecsDeltas
    rc.encodings).withRequestCapabilities rc.supportsProto rc.acceptDeltas

/-- The place of a new entry: before the first one with a greater lcut. -/
def insertByLcut (entry : DeltaCacheEntry) (records : List DeltaCacheEntry) :
    List DeltaCacheEntry :=
  let idx := (records.findIdx? fun r => r.lcut > entry.lcut).getD records.length
  records.insertIdx idx entry

/-- `pop_front` while there are too many. -/
def popExcess (max : Nat) : List DeltaCacheEntry → List DeltaCacheEntry
  | [] => []
  | r :: rest => if (r :: rest).length > max then popExcess max rest else r :: rest

def selectDeltas (deltas : List DeltaCacheEntry) (sinceTime : Nat) : List DeltaCacheEntry :=
  deltas.filter fun d => d.lcut ≥ sinceTime

namespace DeltasStore

def new (sdkKeyStore : SdkKeyStore) (maxResponsesToPersist : Nat) : DeltasStore where
  store := fun _ => []
  sdkKeyStore := sdkKeyStore
  maxResponsesToPersist := max maxResponsesToPersist 1
  max_pos := by omega

variable (deltas : DeltasStore) (codec : SpecsCodec)

def registerSdkKey (rc : AuthorizedRequestContext) (sinceTime : Nat) : DeltasStore :=
  { deltas with
    sdkKeyStore := deltas.sdkKeyStore.upsert (toDeltaRequestContext rc) sinceTime }

def getCachedDeltas (rc : AuthorizedRequestContext) : List DeltaCacheEntry :=
  deltas.store rc.sdkKey

def buildCombinedDeltaProtoPayload (rc : AuthorizedRequestContext) (sinceTime : Nat) :
    DeltaProtoBuildResult :=
  let mapped := toDeltaRequestContext rc
  if !deltas.sdkKeyStore.hasKey mapped then .sdkKeyNotRegistered
  else
    let cached := deltas.getCachedDeltas mapped
    if cached.isEmpty then .noCachedDeltas
    else
      let earliest := ((cached.map fun d => d.sinceTimeRequested).min?).getD 0
      let latest := (cached.getLast?.map fun d => d.lcut).getD 0
      if sinceTime < earliest then .sinceTimeTooOld earliest
      else
        let selected := selectDeltas cached sinceTime
        if selected.isEmpty || sinceTime = latest then .noUpdates latest
        else
          match assembleEnvelopesInDeltaOrder codec selected with
          | some payload => .combined latest payload
          | none => .serializationFailed

def removeSdkKey (rc : AuthorizedRequestContext) : DeltasStore :=
  { deltas with
    sdkKeyStore := deltas.sdkKeyStore.removeKey rc
    store := Function.update deltas.store rc.sdkKey [] }

/-- A payload that does not parse leaves the cache as it is. -/
def persistDelta (rc : AuthorizedRequestContext) (payload : ResponsePayload)
    (sinceTimeRequested : Nat) : DeltasStore :=
  match parsePayloadToProtos codec payload with
  | none => deltas
  | some (envelopes, topLevel) =>
    let entry : DeltaCacheEntry := ⟨sinceTimeRequested, topLevel.time, topLevel, envelopes⟩
    let records := insertByLcut entry (deltas.store rc.sdkKey)
    { deltas with
      store := Function.update deltas.store rc.sdkKey
        (popExcess deltas.maxResponsesToPersist records) }

/-- The observer: answers of the full config loop register a context, those
of the delta loop bring deltas, and both remove a key that is refused. -/
def update (rc : AuthorizedRequestContext) (response : ResponseContext) : DeltasStore :=
  match rc.path with
  | .v2DownloadConfigSpecs =>
    if !rc.supportsProto || !rc.acceptDeltas then deltas
    else
      match response.resultType with
      | .dataAvailable =>
        if deltas.sdkKeyStore.hasKey (toDeltaRequestContext rc) then deltas
        else
          { deltas with
            sdkKeyStore := deltas.sdkKeyStore.upsert (toDeltaRequestContext rc) response.lcut }
      | .unauthorized | .clientError => deltas.removeSdkKey (toDeltaRequestContext rc)
      | .error | .noDataAvailable => deltas
  | .v2DownloadConfigSpecsDeltas =>
    match response.resultType with
    | .dataAvailable =>
      let persisted := deltas.persistDelta codec rc response.body response.requestSinceTime
      { persisted with sdkKeyStore := persisted.sdkKeyStore.upsert rc response.lcut }
    | .unauthorized | .clientError => deltas.removeSdkKey rc
    | .error | .noDataAvailable => deltas
  | _ => deltas

end DeltasStore

/-! ## The store and its polls -/

structure DeltaSystem where
  deltas : DeltasStore
  inFlight : List (AuthorizedRequestContext × Nat)

inductive DeltaCall where
  | registerSdkKey (rc : AuthorizedRequestContext) (sinceTime : Nat)
  | poll (rc : AuthorizedRequestContext)
  | update (rc : AuthorizedRequestContext) (response : ResponseContext)
  deriving DecidableEq, Repr

namespace DeltaSystem

def new (maxResponsesToPersist : Nat) : DeltaSystem :=
  ⟨DeltasStore.new SdkKeyStore.new maxResponsesToPersist, []⟩

variable (codec : SpecsCodec)

/-- What a call does; `none` where it cannot be made: a context that is not
registered is not polled, and an answer of the delta loop belongs to a poll
and carries its since-time. -/
def call (sys : DeltaSystem) : DeltaCall → Option DeltaSystem
  | .registerSdkKey rc sinceTime => some { sys with deltas := sys.deltas.registerSdkKey rc sinceTime }
  | .poll rc =>
    match sys.deltas.sdkKeyStore.getLcut rc with
    | some lcut => some { sys with inFlight := (rc, lcut) :: sys.inFlight }
    | none => none
  | .update rc response =>
    if rc.path = .v2DownloadConfigSpecsDeltas then
      if (rc, response.requestSinceTime) ∈ sys.inFlight then
        some ⟨sys.deltas.update codec rc response,
          sys.inFlight.erase (rc, response.requestSinceTime)⟩
      else none
    else some { sys with deltas := sys.deltas.update codec rc response }

/-- One call that `allowed` lets through. -/
def Step (allowed : DeltaSystem → DeltaCall → Bool) (sys sys' : DeltaSystem) : Prop :=
  ∃ c, allowed sys c = true ∧ sys.call codec c = some sys'

/-- A run given by its calls. -/
def calls (allowed : DeltaSystem → DeltaCall → Bool) :
    List DeltaCall → DeltaSystem → Option DeltaSystem
  | [], sys => some sys
  | c :: rest, sys => if allowed sys c then (sys.call codec c).bind (calls allowed rest) else none

theorem calls_sound {allowed : DeltaSystem → DeltaCall → Bool} {cs : List DeltaCall}
    {sys sys' : DeltaSystem} (h : calls codec allowed cs sys = some sys') :
    Relation.ReflTransGen (Step codec allowed) sys sys' := by
  induction cs generalizing sys with
  | nil =>
    simp only [calls, Option.some.injEq] at h
    rw [h]
  | cons c rest ih =>
    unfold calls at h
    split at h
    · rename_i hallowed
      obtain ⟨mid, hcall, hrest⟩ := Option.bind_eq_some_iff.mp h
      exact .head ⟨c, hallowed, hcall⟩ (ih hrest)
    · simp at h

/-- A run found by computing it, with what was computed of its end. -/
theorem exists_of_calls {codec : SpecsCodec} {allowed : DeltaSystem → DeltaCall → Bool}
    {cs : List DeltaCall} {sys : DeltaSystem} {β : Type} {f : DeltaSystem → β} {b : β}
    (h : (calls codec allowed cs sys).map f = some b) :
    ∃ sys', Relation.ReflTransGen (Step codec allowed) sys sys' ∧ f sys' = b := by
  obtain ⟨sys', hsys', hb⟩ := Option.map_eq_some_iff.mp h
  exact ⟨sys', calls_sound codec hsys', hb⟩

end DeltaSystem

end ForwardProxy.Datastore
