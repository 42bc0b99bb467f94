/-
ForwardProxy.Servers.ConfigRequestTheorems — what a proxy asks for is what
the next one understands.

A context is written into a target and headers and read back from them: the
path and the key from the target (`newSdkKey_path`), the encodings from
`Accept-Encoding` (`compressed_formatted`), the since-time and the proto
flag from the query, in whatever order its parameters come
(`find?_name_perm`).
-/
import ForwardProxy.IdList.DictionaryTheorems
import ForwardProxy.Servers.ConfigRequest
import ForwardProxy.Servers.LayeredProxyTheorems
import ForwardProxy.Servers.RequestIdentityTheorems

namespace ForwardProxy.Servers

open ForwardProxy.Datastore
open ForwardProxy.IdList (parseU64)

/-! ## The path -/

/-- A text that no part of a query cuts. -/
def Plain (text : String) : Prop := (text.toList.all fun c => c.isAlphanum || c = '_') = true

/-- A request for an id-list file is authorized as it was before the fairing
has given it the key of its query. -/
theorem guardDownload_normalizeSdkKey (reader : RequestReader) (cache : SdkKeyCache)
    (request : HttpRequest) (hpath : normalizedPathFrom request.path = .v1DownloadIdListFile) :
    reader.guardDownload (reader.normalizeSdkKey cache request).1 =
      reader.guardDownload request := by
  unfold RequestReader.normalizeSdkKey
  cases hheader : request.headers.getOne "statsig-api-key" with
  | some header => simp
  | none =>
    rw [Option.isSome_none, if_neg Bool.false_ne_true, if_pos hpath]
    cases hsigned : reader.signedKey request with
    | none => rfl
    | some sdkKey =>
      change reader.guardDownload (request.addHeader "statsig-api-key" sdkKey) = _
      -- no other header than that of the key is added
      have hother (name : String) (hname : ¬ IdList.eqIgnoreAsciiCase "statsig-api-key" name) :
          (request.addHeader "statsig-api-key" sdkKey).headers.getOne name =
            request.headers.getOne name := by
        simp [HttpRequest.addHeader, getOne_cons, hname]
      have haccept : (request.addHeader "statsig-api-key" sdkKey).headers.getAll
          "Accept-Encoding" = request.headers.getAll "Accept-Encoding" := by
        simp +decide [HttpRequest.addHeader, Headers.getAll]
      have hkey : (request.addHeader "statsig-api-key" sdkKey).headers.getOne "statsig-api-key" =
          some sdkKey := by
        simp +decide [HttpRequest.addHeader, getOne_cons, hheader]
      have hrange := hother "Range" (by decide)
      have hsize := hother "statsig-id-list-file-size" (by decide)
      have hproto := hother "statsig-supports-proto" (by decide)
      have htarget : (request.addHeader "statsig-api-key" sdkKey).target = request.target := rfl
      generalize request.addHeader "statsig-api-key" sdkKey = withKey at *
      have hpath' : withKey.path = request.path := by rw [HttpRequest.path, htarget]; rfl
      have hquery : withKey.query = request.query := by rw [HttpRequest.query, htarget]; rfl
      have hsigned' : reader.signedKey withKey = some sdkKey := by
        rw [RequestReader.signedKey, hquery]
        exact hsigned
      have hcontext (fileId : String) (rangeStart idListSize : Option Nat) :
          reader.downloadContext withKey sdkKey fileId rangeStart idListSize =
            reader.downloadContext request sdkKey fileId rangeStart idListSize := by
        simp only [RequestReader.downloadContext, RequestReader.acceptableEncodings, haccept,
          RequestReader.doesRequestSupportsProto, RequestReader.queryValue, hproto, hquery,
          doesRequestAcceptDeltas, hpath']
      have hsame : RequestReader.downloadSdkKey (some sdkKey) (some sdkKey) = .ok sdkKey := by
        simp [RequestReader.downloadSdkKey]
      have hquery' : RequestReader.downloadSdkKey none (some sdkKey) = .ok sdkKey := rfl
      simp only [RequestReader.guardDownload, RequestReader.checkDownload, hpath', hkey, hsigned',
        hheader, hsigned, parseStrictIdListFileRangeStart, parseStrictIdListFileSize, hrange, hsize,
        hsame, hquery', bind, Except.bind, hcontext]

/-! ## The round trip -/

section RoundTrip

variable {reader : RequestReader} {rc : AuthorizedRequestContext} {lcut : Nat}
  {params : List (String × String)}

/-- What a proxy that asks has: its since-time, the order of the parameters,
and, at the proxy that answers, the keys read before. -/
structure Asking where
  lcut : Nat
  params : List (String × String)
  cache : SdkKeyCache

/-- The request, and what the proxy at its end reads. -/
def Asking.ask (reader : RequestReader) (asking : Asking) (rc : AuthorizedRequestContext) :
    Option (AuthorizedRequestContext × Nat) :=
  let request := (reader.normalizeSdkKey asking.cache (buildCdnRequest rc asking.params)).1
  (reader.authorizedContext request).map fun asked =>
    (asked.toAuthorizedRequestContext, reader.sinceTime request)

end RoundTrip

end ForwardProxy.Servers
