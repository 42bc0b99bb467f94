/-
ForwardProxy.Servers.ConfigRequest — the request for a config, from the
proxy that sends it to the one that answers it (`request_builder.rs`,
`sdk_key_normalizer.rs`, `authorized_request_context.rs`, `http_server.rs`).

The parameters of the query are in a hash map, so they are written in any
order. The key is read back from the path; the texts of paths and the keys
read from them are kept in a cache, and what a request finds there is no
more than what it would read itself.
-/
import Mathlib.Data.List.DropRight
import ForwardProxy.Servers.HttpServer

namespace ForwardProxy.Servers

open ForwardProxy.Datastore
open ForwardProxy.IdList (parseU64)

/-! ## The request that is sent -/

def formatCompressionEncodings (encodings : List CompressionEncoder) : String :=
  ",".intercalate (encodings.map encoderToString)

def maybeOutboundAcceptEncoding (encodings : List CompressionEncoder) : Option String :=
  if encodings.any fun encoding => encoding ≠ .plainText then
    let value := formatCompressionEncodings encodings
    if value = "" then none else some value
  else none

def renderQuery (params : List (String × String)) : List Char :=
  ['&'].intercalate (params.map fun param => param.1.toList ++ '=' :: param.2.toList)

/-- `build_cdn_request`, with the parameters in the order of the hash map. -/
def buildCdnRequest (rc : AuthorizedRequestContext) (params : List (String × String)) :
    HttpRequest where
  target := rc.path.asStr ++ (rc.sdkKey ++ (".json" ++
    if params = [] then "" else "?" ++ String.ofList (renderQuery params)))
  headers := (if rc.supportsProto then [("statsig-supports-proto", "true")] else []) ++
    [("x-sfp-version", "4.8.0")] ++
    ((maybeOutboundAcceptEncoding rc.encodings).map fun value => ("accept-encoding", value)).toList

/-! ## The key -/

def stripSuffix (ending path : List Char) : Option (List Char) :=
  if ending <:+ path then some (path.take (path.length - ending.length)) else none

/-- The text after the last slash of a path, without its ending. -/
def newSdkKey (path : String) : String :=
  let stem := ((stripSuffix ".json".toList path.toList).or
    (stripSuffix ".js".toList path.toList)).getD path.toList
  if '/' ∈ stem then String.ofList (stem.rtakeWhile (· ≠ '/')) else path

/-- The keys that have been read from paths. -/
structure SdkKeyCache where
  entries : String → Option String
  read_from_path : ∀ path key, entries path = some key → key = newSdkKey path

namespace SdkKeyCache

def new : SdkKeyCache := ⟨fun _ => none, by simp⟩

def insert (cache : SdkKeyCache) (path : String) : SdkKeyCache where
  entries := Function.update cache.entries path (some (newSdkKey path))
  read_from_path := by
    intro path' key h
    by_cases hpath : path' = path
    · simpa [hpath, eq_comm] using h
    · exact cache.read_from_path path' key (by simpa [hpath] using h)

end SdkKeyCache

def HttpRequest.addHeader (request : HttpRequest) (name value : String) : HttpRequest :=
  { request with headers := request.headers ++ [(name, value)] }

namespace RequestReader

variable (reader : RequestReader)

/-- `sdk_key_normalization_fairing`. -/
def normalizeSdkKey (cache : SdkKeyCache) (request : HttpRequest) : HttpRequest × SdkKeyCache :=
  if (request.headers.getOne "statsig-api-key").isSome then (request, cache)
  else if normalizedPathFrom request.path = .v1DownloadIdListFile then
    match reader.signedKey request with
    | some sdkKey => (request.addHeader "statsig-api-key" sdkKey, cache)
    | none => (request, cache)
  else
    match cache.entries request.path with
    | some sdkKey => (request.addHeader "statsig-api-key" sdkKey, cache)
    | none =>
      (request.addHeader "statsig-api-key" (newSdkKey request.path), cache.insert request.path)

/-! ## The context -/

/-- `AuthorizedRequestContextWrapper::from_request`; without a key the
request is refused. -/
def authorizedContext (request : HttpRequest) : Option RequestContext :=
  let path := normalizedPathFrom request.path
  let fileId := if path = .v1DownloadIdListFile then parseIdListFileId request.path else none
  (request.headers.getOne "statsig-api-key").map fun sdkKey =>
    CacheKey.context (CacheKey.canonical {
      sdkKey := sdkKey
      path := path
      encodings := reader.acceptableEncodings request
      supportsProto := reader.doesRequestSupportsProto request
      acceptDeltas := doesRequestAcceptDeltas request || path = .v2DownloadConfigSpecsDeltas
      fileId := fileId })

/-- The since-time of `get_download_config_specs`. -/
def sinceTime (request : HttpRequest) : Nat :=
  (reader.queryValue parseU64 request "sinceTime").getD 0

end RequestReader

end ForwardProxy.Servers
