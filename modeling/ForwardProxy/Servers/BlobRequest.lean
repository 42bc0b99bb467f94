/-
ForwardProxy.Servers.BlobRequest — polls of a blob store, with the CDN
behind it (`DcsRequestBuilder` in `request_builder.rs`,
`http_data_provider.rs`, `dcs_blob_url_generator.rs`).

`makeRequest` and `get` are programs over the requests they send. What the
`azure` crates make of a container and the name of a blob is the parameter
`signBlobUrl`; a URL that cannot be signed cannot be signed the next time.

`Polling` is one proxy and the two origins of a config. Blobs are replaced
by newer ones while polls are on their way, and each request is answered
from what its origin has then. A poll may be given up at any time.
-/
import Mathlib.Logic.Relation
import ForwardProxy.Servers.ConfigChain
import ForwardProxy.Servers.ConfigRequest

namespace ForwardProxy.Servers

open ForwardProxy.Datastore ForwardProxy.Effect
open ForwardProxy.IdList (parseU64)

/-! ## The requests -/

inductive DcsBlobVersion where
  | v1
  | v2
  deriving DecidableEq, Repr

def DcsBlobVersion.containerName : DcsBlobVersion → String
  | .v1 => "dcs-v1"
  | .v2 => "dcs-v2"

structure DcsBlobConfig where
  signBlobUrl : String → String → Option String
  companyId : String

def DcsBlobConfig.buildDownloadUrl (config : DcsBlobConfig) (version : DcsBlobVersion)
    (sdkKey : String) : Option String :=
  config.signBlobUrl version.containerName (config.companyId ++ "/" ++ sdkKey)

inductive OriginCmd where
  | headBlob (url : String)
  | getBlob (url : String) (acceptEncoding : Option String)
  | getCdn (rc : AuthorizedRequestContext) (sinceTime : Nat)
  deriving DecidableEq, Repr

/-- An answer, and whether its body comes to its end. -/
inductive OriginReply where
  | connectError
  | otherError
  | response (response : HttpResponse) (whole : Bool)
  deriving DecidableEq, Repr

abbrev OriginProg (α : Type) : Type := Prog OriginCmd (fun _ => OriginReply) Empty α

def request (c : OriginCmd) : OriginProg OriginReply := Prog.cmd c

/-- What `make_request` returns; a request that fails is a reply as well. -/
inductive RequestBuilderOutcome where
  | response (reply : OriginReply)
  | noDataAvailable (status : Nat)
  deriving DecidableEq, Repr

structure DcsRequestBuilder where
  dcsBlobConfig : Option DcsBlobConfig

def parseBlobMetadataLcut (headers : Headers) : Option Nat :=
  (headers.getOne "x-ms-meta-lcut").bind parseU64

def shouldSkipBlobDownload (currentLcut blobLcut : Nat) : Bool :=
  0 < currentLcut && blobLcut ≤ currentLcut

def shouldFallbackToCdn (status : Nat) : Bool := status = 404

namespace DcsRequestBuilder

variable (builder : DcsRequestBuilder) (rc : AuthorizedRequestContext) (lcut : Nat)

/-- The URL of the blob; deltas and id lists have none. -/
def blobUrl : Option String :=
  match rc.path with
  | .v1DownloadConfigSpecs =>
    builder.dcsBlobConfig.bind fun config => config.buildDownloadUrl .v1 rc.sdkKey
  | .v2DownloadConfigSpecs =>
    builder.dcsBlobConfig.bind fun config => config.buildDownloadUrl .v2 rc.sdkKey
  | _ => none

def buildCdnRequest : OriginCmd := .getCdn rc lcut

def buildBlobBodyRequest : Option OriginCmd :=
  (builder.blobUrl rc).map fun url => .getBlob url (maybeOutboundAcceptEncoding rc.encodings)

def buildBlobMetadataRequest : Option OriginCmd := (builder.blobUrl rc).map .headBlob

def buildRequest : OriginCmd := (builder.buildBlobBodyRequest rc).getD (buildCdnRequest rc lcut)

/-- What is made of the answer with the metadata. -/
def skips : OriginReply → Bool
  | .response response _ =>
    HttpDataProvider.isSuccess response.status &&
      (parseBlobMetadataLcut response.headers).any (shouldSkipBlobDownload lcut)
  | _ => false

def shouldSkipDownloadUsingMetadata : OriginProg Bool :=
  if !rc.useLcut || lcut = 0 then .pure false
  else
    match builder.buildBlobMetadataRequest rc with
    | none => .pure false
    | some metadata => do
      let reply ← request metadata
      .pure (skips lcut reply)

/-- `make_request` behind the check of the metadata. -/
def download : OriginProg RequestBuilderOutcome :=
  match builder.buildBlobBodyRequest rc with
  | some blob => do
    let reply ← request blob
    match reply with
    | .response response _ =>
      if shouldFallbackToCdn response.status then do
        let reply ← request (buildCdnRequest rc lcut)
        .pure (.response reply)
      else .pure (.response reply)
    | _ => .pure (.response reply)
  | none => do
    let reply ← request (builder.buildRequest rc lcut)
    .pure (.response reply)

def makeRequest : OriginProg RequestBuilderOutcome :=
  if rc.useLcut && 0 < lcut then do
    let skip ← builder.shouldSkipDownloadUsingMetadata rc lcut
    if skip then .pure (.noDataAvailable 204) else builder.download rc lcut
  else builder.download rc lcut

end DcsRequestBuilder

/-! ## The data provider -/

def OriginReply.settle (rc : AuthorizedRequestContext) (lcut : Nat) :
    OriginReply → DataProviderResult
  | .connectError | .otherError => HttpDataProvider.handleError none
  | .response answer true => receive rc lcut (dcsIsAnUpdate answer.headers) answer
  | .response answer false =>
    if answer.status = 204 then HttpDataProvider.handleNoData
    else HttpDataProvider.handleError (some answer.status)

def RequestBuilderOutcome.settle (rc : AuthorizedRequestContext) (lcut : Nat) :
    RequestBuilderOutcome → DataProviderResult
  | .response reply => reply.settle rc lcut
  | .noDataAvailable _ => HttpDataProvider.handleNoData

/-- `get`, from what one `make_request` does: one that could not be
connected is made once more. -/
def getWith (rc : AuthorizedRequestContext) (lcut : Nat)
    (makeRequest : OriginProg RequestBuilderOutcome) : OriginProg DataProviderResult := do
  let outcome ← makeRequest
  match outcome with
  | .response .connectError => do
    let outcome ← makeRequest
    .pure (outcome.settle rc lcut)
  | outcome => .pure (outcome.settle rc lcut)

def DcsRequestBuilder.get (builder : DcsRequestBuilder) (rc : AuthorizedRequestContext)
    (lcut : Nat) : OriginProg DataProviderResult :=
  getWith rc lcut (builder.makeRequest rc lcut)

/-- The same without the check of the metadata, to compare it with. -/
def DcsRequestBuilder.getUnchecked (builder : DcsRequestBuilder) (rc : AuthorizedRequestContext)
    (lcut : Nat) : OriginProg DataProviderResult :=
  getWith rc lcut (builder.download rc lcut)

/-- The stores after `process_result`. -/
def takeResult (rc : AuthorizedRequestContext) (clearDatastoreOnUnauthorized : Bool)
    (s : SpecStores) (sinceTime : Nat) (dp : DataProviderResult) : SpecStores :=
  specStoresRunner.after 5 (BackgroundDataProvider.processResult (dcsRequestBuilder []) rc
    sinceTime clearDatastoreOnUnauthorized dp) s ()

/-! ## The origins -/

/-- A config as it lies in the blob store, with its lcut among its
metadata. -/
structure Blob where
  headers : Headers
  body : List UInt8
  lcut : Nat
  metadata : parseBlobMetadataLcut headers = some lcut
  no_since_time : headers.getOne "x-since-time" = none
  no_cache_hit : headers.getOne "x-cache-hit" = none

def Blob.response (blob : Blob) : HttpResponse := ⟨200, blob.headers, blob.body⟩

/-- The config of a blob, as it is stored. -/
def Blob.config (blob : Blob) : ConfigSpecForCompany := ⟨blob.lcut, blob.response.payload⟩

structure Origins where
  blob : Option Blob
  /-- The lcut of what the CDN has. -/
  cdnLcut : Nat

/-- How the origins may answer a request. -/
inductive Answers (o : Origins) : OriginCmd → OriginReply → Prop where
  | connectError (c : OriginCmd) : Answers o c .connectError
  | otherError (c : OriginCmd) : Answers o c .otherError
  | refused (c : OriginCmd) (response : HttpResponse) (whole : Bool)
    (status : 300 ≤ response.status) (found : response.status ≠ 404) :
    Answers o c (.response response whole)
  | noMetadata (url : String) (response : HttpResponse) (whole : Bool)
    (status : response.status = 404) : Answers o (.headBlob url) (.response response whole)
  | noBlob (url : String) (acceptEncoding : Option String) (response : HttpResponse)
    (whole : Bool) (status : response.status = 404) (blob : o.blob = none) :
    Answers o (.getBlob url acceptEncoding) (.response response whole)
  | noConfig (rc : AuthorizedRequestContext) (sinceTime : Nat) (response : HttpResponse)
    (whole : Bool) (status : response.status = 404) :
    Answers o (.getCdn rc sinceTime) (.response response whole)
  | metadata (url : String) (blob : Blob) (found : o.blob = some blob) :
    Answers o (.headBlob url) (.response { blob.response with body := [] } true)
  | blob (url : String) (acceptEncoding : Option String) (blob : Blob) (whole : Bool)
    (found : o.blob = some blob) :
    Answers o (.getBlob url acceptEncoding) (.response blob.response whole)
  | config (rc : AuthorizedRequestContext) (sinceTime lcut : Nat) (response : HttpResponse)
    (whole : Bool) (status : response.status = 200)
    (header : sinceTimeHeader response.headers = some lcut)
    (update : dcsIsAnUpdate response.headers = true) (newest : o.cdnLcut ≤ lcut) :
    Answers o (.getCdn rc sinceTime) (.response response whole)
  | noUpdate (rc : AuthorizedRequestContext) (sinceTime : Nat) (response : HttpResponse)
    (whole : Bool)
    (status : response.status = 204 ∨
      response.status = 200 ∧ dcsIsAnUpdate response.headers = false)
    (newest : o.cdnLcut ≤ sinceTime) :
    Answers o (.getCdn rc sinceTime) (.response response whole)

/-- The config that an answer of the CDN gives out. -/
def givenOut : OriginCmd → OriginReply → Option ConfigSpecForCompany
  | .getCdn _ _, .response response _ =>
    (sinceTimeHeader response.headers).map fun lcut => ⟨lcut, response.payload⟩
  | _, _ => none

/-! ## Polls under way -/

/-- How a proxy polls for a config. The program checks the metadata; polls
without the check are there to compare it with. -/
structure PollingConfig where
  builder : DcsRequestBuilder
  rc : AuthorizedRequestContext
  useLcut : rc.useLcut = true
  clearDatastoreOnUnauthorized : Bool
  checksMetadata : Bool

def PollingConfig.get (cfg : PollingConfig) (lcut : Nat) : OriginProg DataProviderResult :=
  if cfg.checksMetadata then cfg.builder.get cfg.rc lcut
  else cfg.builder.getUnchecked cfg.rc lcut

/-- The lcut of what an origin has for the polls. -/
def Origins.floor (cfg : PollingConfig) (o : Origins) : Nat :=
  if (cfg.builder.blobUrl cfg.rc).isSome then (o.blob.map Blob.lcut).getD 0 else o.cdnLcut

/-- A poll that has been sent. `floor` is what its origin had at that time;
it is kept for the statements only. -/
structure BlobPoll where
  sinceTime : Nat
  floor : Nat
  rest : OriginProg DataProviderResult

structure Polling where
  stores : SpecStores
  origins : Origins
  polls : List BlobPoll
  /-- The blobs there have been, and the configs the CDN has given out. -/
  published : List ConfigSpecForCompany

def Polling.start : Polling := ⟨SpecStores.new, ⟨none, 0⟩, [], []⟩

inductive PollingStep (cfg : PollingConfig) : Polling → Polling → Prop where
  | publish (w : Polling) (blob : Blob) (newer : ∀ old ∈ w.origins.blob, old.lcut ≤ blob.lcut) :
    PollingStep cfg w
      { w with
        origins := { w.origins with blob := some blob }
        published := w.published ++ [blob.config] }
  | publishCdn (w : Polling) (lcut : Nat) (newer : w.origins.cdnLcut ≤ lcut) :
    PollingStep cfg w { w with origins := { w.origins with cdnLcut := lcut } }
  /-- A fetch of the whole config, or the next poll. -/
  | send (w : Polling) (sinceTime : Nat)
    (hsince : sinceTime = 0 ∨ w.stores.keys.getLcut cfg.rc = some sinceTime) :
    PollingStep cfg w
      { w with polls := w.polls ++ [⟨sinceTime, w.origins.floor cfg, cfg.get sinceTime⟩] }
  | answer (w : Polling) (before after : List BlobPoll) (poll : BlobPoll) (c : OriginCmd)
    (k : OriginReply → OriginProg DataProviderResult) (reply : OriginReply)
    (hpolls : w.polls = before ++ poll :: after) (hrest : poll.rest = .call c k)
    (hanswer : Answers w.origins c reply) :
    PollingStep cfg w
      { w with
        polls := before ++ { poll with rest := k reply } :: after
        published := w.published ++ (givenOut c reply).toList }
  | finish (w : Polling) (before after : List BlobPoll) (poll : BlobPoll)
    (dp : DataProviderResult) (hpolls : w.polls = before ++ poll :: after)
    (hrest : poll.rest = .pure dp) :
    PollingStep cfg w
      { w with
        stores := takeResult cfg.rc cfg.clearDatastoreOnUnauthorized w.stores poll.sinceTime dp
        polls := before ++ after }
  | giveUp (w : Polling) (before after : List BlobPoll) (poll : BlobPoll)
    (hpolls : w.polls = before ++ poll :: after) :
    PollingStep cfg w { w with polls := before ++ after }

def PollingRun (cfg : PollingConfig) : Polling → Polling → Prop :=
  Relation.ReflTransGen (PollingStep cfg)

end ForwardProxy.Servers
