/-
ForwardProxy.Servers.RequestIdentity — from the Accept-Encoding headers of a
request to its context, and the cache of contexts
(`authorized_request_context.rs`, `compress_encoder.rs`,
`parsed_accept_encoding.rs`).

A text is the list of its characters. Of a token's parameters the q-value
alone is read; whether the text of a q-value is a number that is not
positive is the parameter `qZero`.

`from_str` lowercases by Unicode. Of the characters that are not ASCII only
the Kelvin sign has a lowercase that is, and no encoding has a k in its
name; so the lowercase of ASCII gives the same answers.

A cached context is shared, so it is modelled with its address. The cache is
read under one lock and written under another: between a read that finds
nothing and the write other requests may have their turn.
-/
import Mathlib.Logic.Relation
import ForwardProxy.Datastore.RequestContext
import ForwardProxy.IdList.KeySchema
import ForwardProxy.Text.Split

namespace ForwardProxy.Servers

open ForwardProxy.Datastore

/-! ## Accept-Encoding -/

/-- `str::trim`. -/
def trimChars (s : List Char) : List Char :=
  (s.dropWhile IdList.isWhitespace).rdropWhile IdList.isWhitespace

def lowercase (s : List Char) : List Char := s.map Char.toLower

/-- `CompressionEncoder::from_str`. -/
def encoderFromStr (s : List Char) : Option CompressionEncoder :=
  let s := lowercase s
  if s = "gzip".toList ∨ s = "x-gzip".toList then some .gzip
  else if s = "br".toList then some .brotli
  else if s = "statsig_br".toList ∨ s = "statsig-br".toList then some .statsigBrotli
  else if s = "deflate".toList then some .deflate
  else if s = "compress".toList then some .compress
  else if s = "identity".toList then some .identity
  else if s = "zstd".toList then some .zstd
  else if s = "plain_text".toList then some .plainText
  else none

section QValue

variable (qZero : List Char → Bool)

/-- A parameter that makes a token unacceptable: a `q` that is not
positive. -/
def paramRefuses (param : List Char) : Bool :=
  let (key, value) := (Text.splitOnce ['='] param).getD (param, [])
  lowercase (trimChars key) = ['q'] && qZero (trimChars value)

def parseAcceptEncodingToken (raw : List Char) : Option (CompressionEncoder × Bool) :=
  match raw.splitOn ';' with
  | [] => none
  | token :: params =>
    (encoderFromStr (lowercase (trimChars token))).map fun encoding =>
      (encoding, !params.any (paramRefuses qZero))

structure ParsedAcceptEncoding where
  acceptableEncodings : List CompressionEncoder
  sawNonEmptyToken : Bool
  sawUnrecognizedToken : Bool
  deriving DecidableEq, Repr

namespace ParsedAcceptEncoding

/-- One round of the loop of `from_raw_value`. -/
def takeToken (parsed : ParsedAcceptEncoding) (raw : List Char) : ParsedAcceptEncoding :=
  let raw := trimChars raw
  if raw.isEmpty then parsed
  else
    match parseAcceptEncodingToken qZero raw with
    | some (encoding, true) =>
      { parsed with
        acceptableEncodings := parsed.acceptableEncodings ++ [encoding]
        sawNonEmptyToken := true }
    | some (_, false) => { parsed with sawNonEmptyToken := true }
    | none => { parsed with sawNonEmptyToken := true, sawUnrecognizedToken := true }

def fromRawValue (value : List Char) : ParsedAcceptEncoding :=
  let parsed := (value.splitOn ',').foldl (takeToken qZero) ⟨[], false, false⟩
  let sorted := parsed.acceptableEncodings.insertionSort fun a b =>
    encodingPriority a ≤ encodingPriority b
  { parsed with acceptableEncodings := sorted.destutter (· ≠ ·) }

def fromHeaderValues (header : List (List Char)) : ParsedAcceptEncoding :=
  fromRawValue qZero ([','].intercalate header)

/-- `acceptable_encodings()`. -/
def compressed (parsed : ParsedAcceptEncoding) : List CompressionEncoder :=
  parsed.acceptableEncodings.filter fun e => !(e = .plainText || e = .identity)

end ParsedAcceptEncoding

end QValue

/-! ## Contexts -/

/-- A context with the parts that are not in its identity. -/
structure RequestContext extends AuthorizedRequestContext where
  rawPath : Option String
  rawQuery : Option String
  rangeStart : Option Nat
  deriving DecidableEq, Repr

/-- What `Hash` calls of a hasher. -/
structure Hasher (σ : Type) where
  writeStr : σ → String → σ
  writeBool : σ → Bool → σ
  writeU64 : σ → Nat → σ
  writeLengthPrefix : σ → Nat → σ
  writeDiscriminant : σ → Nat → σ

namespace Hasher

variable {σ : Type} (hasher : Hasher σ)

/-- The derived `Hash` of `Option`. -/
def writeOption {α : Type} (write : σ → α → σ) (state : σ) : Option α → σ
  | none => hasher.writeDiscriminant state 0
  | some a => write (hasher.writeDiscriminant state 1) a

/-- The derived `Hash` of `NormalizedPath`. -/
def writePath (state : σ) : NormalizedPath → σ
  | .v1DownloadConfigSpecs => hasher.writeDiscriminant state 0
  | .v1GetIdLists => hasher.writeDiscriminant state 1
  | .v1DownloadIdListFile => hasher.writeDiscriminant state 2
  | .v1LogEvent => hasher.writeDiscriminant state 3
  | .v1UserEnrichment => hasher.writeDiscriminant state 4
  | .v2DownloadConfigSpecs => hasher.writeDiscriminant state 5
  | .v2DownloadConfigSpecsDeltas => hasher.writeDiscriminant state 6
  | .rawPath path => hasher.writeStr (hasher.writeDiscriminant state 7) path

end Hasher

/-- `Display` of an encoding, by which it is hashed. -/
def encoderToString : CompressionEncoder → String
  | .plainText => "plain_text"
  | .gzip => "gzip"
  | .brotli => "br"
  | .statsigBrotli => "statsig-br"
  | .deflate => "deflate"
  | .compress => "compress"
  | .identity => "identity"
  | .zstd => "zstd"

namespace RequestContext

def new (sdkKey : String) (path : NormalizedPath) (encodings : List CompressionEncoder) :
    RequestContext where
  toAuthorizedRequestContext := AuthorizedRequestContext.new sdkKey path encodings
  rawPath := none
  rawQuery := none
  rangeStart := none

def withRequestCapabilities (rc : RequestContext) (supportsProto acceptDeltas : Bool) :
    RequestContext :=
  { rc with supportsProto := supportsProto, acceptDeltas := acceptDeltas }

def withRawRequest (rc : RequestContext) (rawPath rawQuery : Option String) : RequestContext :=
  { rc with rawPath := rawPath, rawQuery := rawQuery }

def withIdListRequest (rc : RequestContext) (fileId : Option String)
    (rangeStart idListSize : Option Nat) : RequestContext :=
  { rc with fileId := fileId, rangeStart := rangeStart, idListSize := idListSize }

/-- `PartialEq`. -/
def eq (a b : RequestContext) : Bool :=
  a.sdkKey = b.sdkKey
    && a.path = b.path
    && a.encodings = b.encodings
    && a.supportsProto = b.supportsProto
    && a.acceptDeltas = b.acceptDeltas
    && a.fileId = b.fileId
    && a.idListSize = b.idListSize

/-- `Hash`. -/
def hash {σ : Type} (hasher : Hasher σ) (rc : RequestContext) (state : σ) : σ :=
  let state := hasher.writeStr state rc.sdkKey
  let state := hasher.writePath state rc.path
  let state := hasher.writeLengthPrefix state rc.encodings.length
  let state := rc.encodings.foldl (fun state e => hasher.writeStr state (encoderToString e)) state
  let state := hasher.writeBool state rc.supportsProto
  let state := hasher.writeBool state rc.acceptDeltas
  let state := hasher.writeOption hasher.writeStr state rc.fileId
  hasher.writeOption hasher.writeU64 state rc.idListSize

end RequestContext

/-! ## The cache of contexts -/

structure CacheKey where
  sdkKey : String
  path : NormalizedPath
  encodings : List CompressionEncoder
  supportsProto : Bool
  acceptDeltas : Bool
  fileId : Option String
  deriving DecidableEq, Repr

/-- The key of a call of `get_or_insert`: its arguments, with the encodings
in their canonical form. -/
def CacheKey.canonical (args : CacheKey) : CacheKey :=
  { args with encodings := canonicalizeEncodings args.encodings }

/-- The context that is inserted under a key. -/
def CacheKey.context (key : CacheKey) : RequestContext :=
  ((RequestContext.new key.sdkKey key.path key.encodings).withRequestCapabilities
    key.supportsProto key.acceptDeltas).withIdListRequest key.fileId none none

/-- An `Arc`. -/
structure CachedContext where
  address : Nat
  context : RequestContext
  deriving DecidableEq, Repr

structure AuthorizedRequestContextCache where
  entries : CacheKey → Option CachedContext
  allocated : Nat

namespace AuthorizedRequestContextCache

def new : AuthorizedRequestContextCache := ⟨fun _ => none, 0⟩

/-- `entry(key).or_insert_with(..)`, under the write lock. -/
def orInsert (cache : AuthorizedRequestContextCache) (key : CacheKey) :
    CachedContext × AuthorizedRequestContextCache :=
  match cache.entries key with
  | some cached => (cached, cache)
  | none =>
    let cached : CachedContext := ⟨cache.allocated, key.context⟩
    (cached, ⟨Function.update cache.entries key (some cached), cache.allocated + 1⟩)

end AuthorizedRequestContextCache

/-- The cache with the calls of `get_or_insert`: those that have found
nothing under the read lock, and what the others have returned. -/
structure CacheSystem where
  cache : AuthorizedRequestContextCache
  missed : List CacheKey
  returned : List (CacheKey × CachedContext)

def CacheSystem.new : CacheSystem := ⟨.new, [], []⟩

inductive CacheStep : CacheSystem → CacheSystem → Prop where
  | hit {s : CacheSystem} {args : CacheKey} {cached : CachedContext}
    (found : s.cache.entries args.canonical = some cached) :
    CacheStep s { s with returned := (args, cached) :: s.returned }
  | miss {s : CacheSystem} {args : CacheKey} (absent : s.cache.entries args.canonical = none) :
    CacheStep s { s with missed := args :: s.missed }
  | insert {s : CacheSystem} {args : CacheKey} (waits : args ∈ s.missed) :
    CacheStep s ⟨(s.cache.orInsert args.canonical).2, s.missed.erase args,
      (args, (s.cache.orInsert args.canonical).1) :: s.returned⟩

abbrev CacheReach : CacheSystem → Prop := Relation.ReflTransGen CacheStep .new

/-! ## Requests -/

/-- What a context is made of besides the Accept-Encoding headers. -/
structure RequestInputs where
  sdkKey : String
  path : NormalizedPath
  supportsProto : Bool
  acceptDeltas : Bool
  rawPath : Option String
  rawQuery : Option String
  fileId : Option String
  rangeStart : Option Nat
  idListSize : Option Nat
  deriving DecidableEq, Repr

namespace RequestInputs

variable (inputs : RequestInputs) (qZero : List Char → Bool) (header : List (List Char))

def context : RequestContext :=
  let encodings := (ParsedAcceptEncoding.fromHeaderValues qZero header).compressed
  (((RequestContext.new inputs.sdkKey inputs.path encodings).withRequestCapabilities
    inputs.supportsProto inputs.acceptDeltas).withRawRequest inputs.rawPath
      inputs.rawQuery).withIdListRequest inputs.fileId inputs.rangeStart inputs.idListSize

/-- The arguments of `get_or_insert`. -/
def cacheArgs : CacheKey where
  sdkKey := inputs.sdkKey
  path := inputs.path
  encodings := (ParsedAcceptEncoding.fromHeaderValues qZero header).compressed
  supportsProto := inputs.supportsProto
  acceptDeltas := inputs.acceptDeltas
  fileId := inputs.fileId

end RequestInputs

end ForwardProxy.Servers
