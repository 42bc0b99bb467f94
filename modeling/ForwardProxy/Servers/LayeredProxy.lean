/-
ForwardProxy.Servers.LayeredProxy — proxies behind proxies, and workers
behind a proxy (`http_data_provider.rs`, `request_builder.rs`,
`worker/download.rs`).

`receive` is what the data provider makes of an answer that has arrived
whole. `layer` is one proxy behind another: it asks for a config, and keeps
what it receives. `IdListFileRequestBuilder.buildRequest` and
`buildDownloadRequest` are the requests for an id-list file that a proxy and
a worker send to a proxy, and `downloadThrough` puts proxies with empty
caches one behind another. `downloadFile` is what the worker makes of the
answer. The worker asks the CDN in another way, and that is `IdList.Download`.

A request has no Accept-Encoding but the one it is given here: the client is
built without decoders. Other headers that the client adds are not read by
the proxy. The `url` crate leaves the targets as they are.
-/
import ForwardProxy.Datastore.IdListFileStore
import ForwardProxy.Servers.HttpServer

namespace ForwardProxy.Servers

open ForwardProxy.Datastore
open ForwardProxy.IdList (parseU64 DownloadError checkEncoding contentRangeStartsAt)

/-! ## Answers from upstream -/

/-- `x-since-time`, or the lcut of a blob. -/
def sinceTimeHeader (headers : Headers) : Option Nat :=
  ((headers.getOne "x-since-time").bind parseU64).or
    ((headers.getOne "x-ms-meta-lcut").bind parseU64)

def parseUseProto (headers : Headers) : Bool :=
  (headers.getOne "Content-Type").any fun contentType =>
    "application/octet-stream".toList <:+: contentType.toList

def receivedEncoding (headers : Headers) : CompressionEncoder :=
  ((headers.getOne "content-encoding").bind fun value => encoderFromStr value.toList).getD
    .plainText

def HttpResponse.payload (response : HttpResponse) : ResponsePayload :=
  ⟨parseUseProto response.headers, receivedEncoding response.headers, response.body⟩

/-- `is_an_update` of the configs. -/
def dcsIsAnUpdate (headers : Headers) : Bool :=
  (headers.getOne "x-cache-hit").all (· = "false")

/-- `isAnUpdate` is what the request builder says of the answer. -/
def receive (rc : AuthorizedRequestContext) (lcut : Nat) (isAnUpdate : Bool)
    (response : HttpResponse) : DataProviderResult :=
  if response.status = 204 then HttpDataProvider.handleNoData
  else if !HttpDataProvider.isSuccess response.status then
    HttpDataProvider.handleError (some response.status)
  else if !isAnUpdate then HttpDataProvider.handleNoData
  else ⟨.dataAvailable, some response.payload,
    HttpDataProvider.parseSinceTime rc lcut (sinceTimeHeader response.headers)⟩

/-! ## Configs through layers -/

/-- A proxy that asks another one for a config: the context and the
since-time it asks with, and whether the answer was made of deltas. -/
structure Hop where
  rc : AuthorizedRequestContext
  sinceTime : Nat
  deltaUsed : Bool
  deriving DecidableEq, Repr

/-- The config and the lcut that are received of those upstream has. -/
def layer (stored : ResponsePayload × Nat) (hop : Hop) : Option (ResponsePayload × Nat) :=
  let response := (toRequestPayload stored.1 stored.2 hop.deltaUsed).respondTo
  let dp := receive hop.rc hop.sinceTime (dcsIsAnUpdate response.headers) response
  match dp.result, dp.body with
  | .dataAvailable, some body => some (body, dp.lcut)
  | _, _ => none

def layers (hops : List Hop) (stored : ResponsePayload × Nat) : Option (ResponsePayload × Nat) :=
  hops.foldlM layer stored

/-! ## Id-list files through layers -/

/-- The base URL of the upstream is an origin, so the target starts with the
raw path. -/
def IdListFileRequestBuilder.buildRequest (rc : RequestContext) : HttpRequest where
  target := rc.rawPath.getD rc.path.asStr ++ (rc.rawQuery.map ("?" ++ ·)).getD ""
  headers := [("x-sfp-version", "4.8.0")] ++
    (if rc.rangeStart = some 0 then [("range", "bytes=0-")] else []) ++
    (rc.idListSize.map fun size => ("statsig-id-list-file-size", toString size)).toList

def HttpResponse.attempt (response : HttpResponse) : Attempt :=
  .response response.status (sinceTimeHeader response.headers) (some response.payload)

def RequestContext.fileRequest (rc : RequestContext) : FileRequest where
  toAuthorizedRequestContext := rc.toAuthorizedRequestContext
  rangeStart := rc.rangeStart

/-- `get_or_fetch` of a proxy with an empty cache, whose requests `upstream`
answers. -/
def coldGetOrFetch (upstream : HttpRequest → HttpResponse) (rc : RequestContext) :
    Option (List UInt8) :=
  let answer := upstream (IdListFileRequestBuilder.buildRequest rc)
  match fileServerRunner.run 5 (IdListFileStore.getOrFetch rc.fileRequest) FileServer.new
    [answer.attempt] with
  | some (_, .ok body) => body
  | _ => none

/-- The answer of a proxy with `depth` others between it and the one that
has the files, by key and file id. -/
def downloadThrough (reader : RequestReader) (files : String → String → Option (List UInt8)) :
    Nat → HttpRequest → HttpResponse
  | 0 => getDownloadIdListFileRoute reader fun rc => rc.fileId.bind (files rc.sdkKey)
  | depth + 1 =>
    getDownloadIdListFileRoute reader (coldGetOrFetch (downloadThrough reader files depth))

/-! ## The worker -/

/-- Where the host is not the CDN. -/
def buildDownloadRequest (target range : String) (fileSize : Nat) : HttpRequest where
  target := target
  headers := [("accept-encoding", "identity"), ("range", "bytes=" ++ range),
    ("statsig-id-list-file-size", toString fileSize)]

/-- The answer as it reaches the worker, its body in pieces. -/
structure Delivers (response : HttpResponse) (delivered : IdList.Response) : Prop where
  status : delivered.status = response.status
  contentRange : delivered.contentRange = response.headers.getOne "content-range"
  contentEncoding : delivered.contentEncoding = response.headers.getOne "content-encoding"
  body : delivered.body = response.body

/-- The checks of `download_file`; the body is the stream of the pieces. -/
def downloadFile (start : Nat) (response : IdList.Response) :
    Except DownloadError (List IdList.Bytes × Option String) :=
  if response.status < 200 ∨ 300 ≤ response.status then
    .error (.worker (.originStatus response.status))
  else if 0 < start ∧ response.status ≠ 206 then .error (.worker .rangeIgnored)
  else if 0 < start ∧ !response.contentRange.any (contentRangeStartsAt · start) then
    .error (.worker (.invalidFile "unexpected Content-Range"))
  else
    match checkEncoding response with
    | .error e => .error e
    | .ok () => .ok (response.pieces, response.fault)

end ForwardProxy.Servers
