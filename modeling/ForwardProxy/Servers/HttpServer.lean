/-
ForwardProxy.Servers.HttpServer — the answers of the HTTP server, and the
requests for id-list files (`http_server.rs`, `response_compression.rs`,
`authorized_request_context.rs`, `request_helper.rs`, `normalized_path.rs`).

A request is a GET: its target, from the first slash on, and its headers;
names of headers are compared without case. `Content-Length` is that of the
body. What the `url` crate makes of a query is the parameter `queryPairs`,
and what Rocket makes of it the parameter `queryFields`.
-/
import ForwardProxy.Datastore.RedisCache
import ForwardProxy.IdList.Download
import ForwardProxy.Servers.RequestIdentity

namespace ForwardProxy.Servers

open ForwardProxy.Datastore
open ForwardProxy.IdList (parseU64 eqIgnoreAsciiCase)

/-! ## Messages -/

abbrev Headers : Type := List (String × String)

/-- `get_one`, and `get` of a header map. -/
def Headers.getOne (headers : Headers) (name : String) : Option String :=
  (headers.find? fun header => eqIgnoreAsciiCase header.1 name).map Prod.snd

/-- The values of the headers of a name. -/
def Headers.getAll (headers : Headers) (name : String) : List String :=
  (headers.filter fun header => eqIgnoreAsciiCase header.1 name).map Prod.snd

structure HttpRequest where
  target : String
  headers : Headers
  deriving DecidableEq, Repr

structure HttpResponse where
  status : Nat
  headers : Headers
  body : List UInt8
  deriving DecidableEq, Repr

/-- The path and the query of a target. -/
def splitTarget (target : String) : String × Option String :=
  match Text.splitOnce ['?'] target.toList with
  | some (path, query) => (String.ofList path, some (String.ofList query))
  | none => (target, none)

def HttpRequest.path (request : HttpRequest) : String := (splitTarget request.target).1

def HttpRequest.query (request : HttpRequest) : Option String := (splitTarget request.target).2

/-! ## Paths -/

/-- `NormalizedPath::from`. -/
def normalizedPathFrom (value : String) : NormalizedPath :=
  if "/v1/download_config_specs".toList <+: value.toList then .v1DownloadConfigSpecs
  else if "/v1/get_id_lists".toList <+: value.toList then .v1GetIdLists
  else if "/v1/download_id_list_file".toList <+: value.toList then .v1DownloadIdListFile
  else if "/v1/log_event".toList <+: value.toList then .v1LogEvent
  else if "/v1/user_enrichment".toList <+: value.toList then .v1UserEnrichment
  else if "/v2/download_config_specs_deltas".toList <+: value.toList then
    .v2DownloadConfigSpecsDeltas
  else if "/v2/download_config_specs".toList <+: value.toList then .v2DownloadConfigSpecs
  else .rawPath value

def idListFilePath : String := "/v1/download_id_list_file/"

/-- `strip_prefix`, and the segment after it. -/
def segmentAfter (start path : String) : Option String :=
  ((path.toList.dropPrefix? start.toList).map fun rest =>
    String.ofList (rest.takeWhile (· ≠ '/'))).filter (· ≠ "")

def parseIdListFileId (path : String) : Option String := segmentAfter idListFilePath path

/-! ## Configs and manifests -/

def contentEncodingHeaderValue : CompressionEncoder → Option String
  | .statsigBrotli => some "statsig-br"
  | .brotli => some "br"
  | .gzip => some "gzip"
  | .deflate => some "deflate"
  | .compress => some "compress"
  | .zstd => some "zstd"
  | .plainText | .identity => none

inductive RequestPayloads where
  | gzipped (data : List UInt8) (lcut : Nat) (deltaUsed : Bool)
  | brotli (data : List UInt8) (lcut : Nat) (deltaUsed : Bool)
  | proto (data : List UInt8) (lcut : Nat) (encoding : CompressionEncoder) (deltaUsed : Bool)
  | plain (data : List UInt8) (lcut : Nat) (deltaUsed : Bool)
  | text (data : List UInt8) (status : Nat) (contentRange : Option String)
  | rangeNotSatisfiable (completeLength : Nat)
  | error (status : Nat) (body : String)
  | unauthorized
  deriving DecidableEq, Repr

def dcsNoUpdateJson : List UInt8 := "\x7b\"has_updates\":false\x7d".toUTF8.toList

def deltaUsedHeader (deltaUsed : Bool) : Headers :=
  if deltaUsed then [("x-deltas-used", "true")] else []

def jsonHeaders (lcut : Nat) (deltaUsed : Bool) (encoding : Option String) : Headers :=
  [("Content-Type", "application/json")] ++
    (encoding.map fun value => ("Content-Encoding", value)).toList ++
    [("x-since-time", toString lcut)] ++ deltaUsedHeader deltaUsed

def RequestPayloads.respondTo : RequestPayloads → HttpResponse
  | .gzipped data lcut deltaUsed => ⟨200, jsonHeaders lcut deltaUsed (some "gzip"), data⟩
  | .brotli data lcut deltaUsed => ⟨200, jsonHeaders lcut deltaUsed (some "br"), data⟩
  | .proto data lcut encoding deltaUsed =>
    ⟨200, [("Content-Type", "application/octet-stream")] ++
      ((contentEncodingHeaderValue encoding).map fun value => ("Content-Encoding", value)).toList ++
      deltaUsedHeader deltaUsed ++ [("x-since-time", toString lcut)], data⟩
  | .plain data lcut deltaUsed =>
    ⟨200, jsonHeaders lcut deltaUsed none ++
      (if data = dcsNoUpdateJson then [("x-cache-hit", "true")] else []), data⟩
  | .text data status contentRange =>
    ⟨status, [("Content-Type", "application/octet-stream"), ("Accept-Ranges", "bytes")] ++
      (contentRange.map fun value => ("Content-Range", value)).toList, data⟩
  | .rangeNotSatisfiable completeLength =>
    ⟨416, [("Content-Type", "application/octet-stream"), ("Accept-Ranges", "bytes"),
      ("Content-Range", "bytes */" ++ toString completeLength)], []⟩
  | .error status body => ⟨status, [("Content-Type", "text/plain; charset=utf-8")],
      body.toUTF8.toList⟩
  | .unauthorized => ⟨401, [("Content-Type", "text/plain; charset=utf-8")],
      "Unauthorized".toUTF8.toList⟩

def toRequestPayload (payload : ResponsePayload) (lcut : Nat) (deltaUsed : Bool) :
    RequestPayloads :=
  if payload.useProto then .proto payload.data lcut payload.encoding deltaUsed
  else if payload.encoding = .gzip then .gzipped payload.data lcut deltaUsed
  else if payload.encoding = .brotli then .brotli payload.data lcut deltaUsed
  else .plain payload.data lcut deltaUsed

/-! ## Requests for id-list files -/

inductive DownloadIdListFileRequestError where
  | missingSdkKey
  | conflictingSdkKey
  | missingFileId
  | invalidRange
  | invalidIdListFileSize
  deriving DecidableEq, Repr

def DownloadIdListFileRequestError.body : DownloadIdListFileRequestError → String
  | .missingSdkKey => "Missing statsig-api-key"
  | .conflictingSdkKey => "Signed query sdk key does not match statsig-api-key header"
  | .missingFileId => "Missing id list file id"
  | .invalidRange => "Range must be absent or formatted as bytes=<start>-"
  | .invalidIdListFileSize => "statsig-id-list-file-size must be a valid unsigned integer"

def parseStrictIdListFileSize (headers : Headers) :
    Except DownloadIdListFileRequestError (Option Nat) :=
  match headers.getOne "statsig-id-list-file-size" with
  | some value =>
    match parseU64 (String.ofList (trimChars value.toList)) with
    | some size => .ok (some size)
    | none => .error .invalidIdListFileSize
  | none => .ok none

/-- The start of a range, `bytes=<start>-`. -/
def parseRangeStart (value : String) : Option Nat :=
  ((trimChars value.toList).dropPrefix? "bytes=".toList).bind fun range =>
    if range = [] ∨ ',' ∈ range then none
    else (Text.splitOnce ['-'] range).bind fun parts =>
      if parts.1 = [] ∨ parts.2 ≠ [] then none else parseU64 (String.ofList parts.1)

def parseStrictIdListFileRangeStart (headers : Headers) :
    Except DownloadIdListFileRequestError (Option Nat) :=
  match headers.getOne "Range" with
  | some value =>
    match parseRangeStart value with
    | some start => .ok (some start)
    | none => .error .invalidRange
  | none => .ok none

/-- What the `url` and `rocket` crates and `f32` read in a request. -/
structure RequestReader where
  queryPairs : String → Option (List (String × String))
  queryFields : String → List (String × String)
  qZero : List Char → Bool

/-- A `bool` in a form. -/
def formBool (value : String) : Option Bool :=
  if ["", "on", "yes", "true"].any (eqIgnoreAsciiCase value) then some true
  else if ["off", "no", "false"].any (eqIgnoreAsciiCase value) then some false
  else none

def queryParamIsTrue (query key : String) : Bool :=
  (query.toList.splitOn '&').any fun pair =>
    match Text.splitOnce ['='] pair with
    | some (k, v) => k = key.toList &&
        (eqIgnoreAsciiCase (String.ofList v) "true" || v = ['1'])
    | none => pair = key.toList

def doesRequestAcceptDeltas (request : HttpRequest) : Bool :=
  request.query.any fun query => queryParamIsTrue query "accept_deltas"

namespace RequestReader

variable (reader : RequestReader)

/-- `query_value`, where the value can be parsed. -/
def queryValue {α : Type} (parse : String → Option α) (request : HttpRequest) (name : String) :
    Option α :=
  request.query.bind fun query =>
    ((reader.queryFields query).find? fun field => field.1 = name).bind fun field => parse field.2

def doesRequestSupportsProto (request : HttpRequest) : Bool :=
  (reader.queryValue formBool request "supports_proto").getD
    (request.headers.getOne "statsig-supports-proto" = some "true")

def acceptableEncodings (request : HttpRequest) : List CompressionEncoder :=
  (ParsedAcceptEncoding.fromHeaderValues reader.qZero
    ((request.headers.getAll "Accept-Encoding").map String.toList)).compressed

end RequestReader

inductive DownloadIdListFileRequestGuard where
  | authorized (rc : RequestContext)
  | invalid (error : DownloadIdListFileRequestError)
  /-- An error of the server: the route is not that of an id-list file. -/
  | failed
  deriving DecidableEq, Repr

namespace RequestReader

variable (reader : RequestReader)

def extractDownloadIdListFileSdkKey (query : String) : Option String :=
  (reader.queryPairs query).bind fun pairs =>
    (pairs.find? fun pair => pair.1 = "k").map Prod.snd

/-- The key in the signed query of a request. -/
def signedKey (request : HttpRequest) : Option String :=
  request.query.bind reader.extractDownloadIdListFileSdkKey

/-- The key of the header and that of the signed query. -/
def downloadSdkKey (header signed : Option String) :
    Except DownloadIdListFileRequestError String :=
  match header, signed with
  | some header, some signed => if header ≠ signed then .error .conflictingSdkKey else .ok signed
  | some header, none => .ok header
  | none, some signed => .ok signed
  | none, none => .error .missingSdkKey

def downloadContext (request : HttpRequest) (sdkKey fileId : String)
    (rangeStart idListSize : Option Nat) : RequestContext :=
  (((RequestContext.new sdkKey .v1DownloadIdListFile
    (reader.acceptableEncodings request)).withRequestCapabilities
      (reader.doesRequestSupportsProto request) (doesRequestAcceptDeltas request)).withRawRequest
        (some request.path) request.query).withIdListRequest (some fileId) rangeStart idListSize

/-- The checks of the guard, in their order. -/
def checkDownload (request : HttpRequest) :
    Except DownloadIdListFileRequestError RequestContext := do
  let sdkKey ← downloadSdkKey (request.headers.getOne "statsig-api-key")
    (reader.signedKey request)
  let fileId ← (parseIdListFileId request.path).elim (.error .missingFileId) .ok
  let rangeStart ← parseStrictIdListFileRangeStart request.headers
  let idListSize ← parseStrictIdListFileSize request.headers
  .ok (reader.downloadContext request sdkKey fileId rangeStart idListSize)

/-- `DownloadIdListFileRequestGuard::from_request`. -/
def guardDownload (request : HttpRequest) : DownloadIdListFileRequestGuard :=
  if normalizedPathFrom request.path ≠ .v1DownloadIdListFile then .failed
  else
    match reader.checkDownload request with
    | .ok rc => .authorized rc
    | .error error => .invalid error

end RequestReader

/-! ## Answers with id-list files -/

def buildDownloadIdListFilePayload (rc : RequestContext) (data : List UInt8) : RequestPayloads :=
  match rc.rangeStart with
  | none => .text data 200 none
  | some start =>
    if data.length ≤ start then .rangeNotSatisfiable data.length
    else .text (data.drop start) 206
      (some ("bytes " ++ toString start ++ "-" ++ toString (data.length - 1) ++ "/" ++
        toString data.length))

/-- The route, where `getOrFetch` is what the store returns. -/
def getDownloadIdListFileRoute (reader : RequestReader)
    (getOrFetch : RequestContext → Option (List UInt8)) (request : HttpRequest) : HttpResponse :=
  match reader.guardDownload request with
  | .authorized rc =>
    match getOrFetch rc with
    | some data => (buildDownloadIdListFilePayload rc data).respondTo
    | none => RequestPayloads.respondTo .unauthorized
  | .invalid error => (RequestPayloads.error 400 error.body).respondTo
  | .failed => ⟨500, [], []⟩

end ForwardProxy.Servers
