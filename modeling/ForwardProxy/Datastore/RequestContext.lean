/-
ForwardProxy.Datastore.RequestContext — what a request asks for, and what
the data provider answers (`authorized_request_context.rs`,
`normalized_path.rs`, `compress_encoder.rs`, `data_providers/mod.rs`).

A context is the key of the stores, so the model keeps the fields that
`PartialEq` and `Hash` compare. The signed path and query and the start of
the range are carried along by the source and are no part of the identity.
`use_lcut` is computed from the path by the only constructor.
-/
import Mathlib.Data.List.Sort
import Mathlib.Data.List.Destutter

namespace ForwardProxy.Datastore

inductive NormalizedPath where
  | v1DownloadConfigSpecs
  | v1GetIdLists
  | v1DownloadIdListFile
  | v1LogEvent
  | v1UserEnrichment
  | v2DownloadConfigSpecs
  | v2DownloadConfigSpecsDeltas
  | rawPath (path : String)
  deriving DecidableEq, Repr

inductive CompressionEncoder where
  | plainText
  | gzip
  | brotli
  | statsigBrotli
  | deflate
  | compress
  | identity
  | zstd
  deriving DecidableEq, Repr

def encodingPriority : CompressionEncoder → Nat
  | .statsigBrotli => 0
  | .gzip => 1
  | .brotli => 2
  | .zstd => 3
  | .deflate => 4
  | .compress => 5
  | .identity => 6
  | .plainText => 7

/-- Sorted by priority, without repetitions, and only the encodings the
proxy can answer in; plain text when none is left. -/
def canonicalizeEncodings (encodings : List CompressionEncoder) : List CompressionEncoder :=
  let sorted := encodings.insertionSort fun a b => encodingPriority a ≤ encodingPriority b
  let deduped := sorted.destutter (· ≠ ·)
  let retained := deduped.filter fun e => e = .statsigBrotli ∨ e = .gzip
  if retained.isEmpty then [.plainText] else retained

structure AuthorizedRequestContext where
  sdkKey : String
  path : NormalizedPath
  supportsProto : Bool
  acceptDeltas : Bool
  encodings : List CompressionEncoder
  fileId : Option String
  idListSize : Option Nat
  deriving DecidableEq, Repr

namespace AuthorizedRequestContext

def new (sdkKey : String) (path : NormalizedPath) (encodings : List CompressionEncoder) :
    AuthorizedRequestContext where
  sdkKey := sdkKey
  path := path
  supportsProto := false
  acceptDeltas := false
  encodings := canonicalizeEncodings encodings
  fileId := none
  idListSize := none

def withRequestCapabilities (rc : AuthorizedRequestContext) (supportsProto acceptDeltas : Bool) :
    AuthorizedRequestContext :=
  { rc with supportsProto := supportsProto, acceptDeltas := acceptDeltas }

def useLcut (rc : AuthorizedRequestContext) : Bool :=
  rc.path = .v1DownloadConfigSpecs ∨ rc.path = .v2DownloadConfigSpecs ∨
    rc.path = .v2DownloadConfigSpecsDeltas

end AuthorizedRequestContext

/-! ## Answers -/

inductive DataProviderRequestResult where
  | dataAvailable
  | noDataAvailable
  | unauthorized
  | clientError
  | error
  deriving DecidableEq, Repr

structure ResponsePayload where
  useProto : Bool
  encoding : CompressionEncoder
  data : List UInt8
  deriving DecidableEq, Repr

structure ResponseContext where
  resultType : DataProviderRequestResult
  lcut : Nat
  requestSinceTime : Nat
  body : ResponsePayload
  deriving DecidableEq, Repr

end ForwardProxy.Datastore
