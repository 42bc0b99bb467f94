/-
ForwardProxy.Servers.LayeredProxyTheorems — what is left of a config or of
an id-list file after any number of proxies.

The headers of an answer are the only thing a proxy knows of a config of
another one. `layer_eq` says what they lose of it, and a loss happens at the
first layer or at none (`configs_through_layers`).

A request for an id-list file is passed on with its signed query, and not
with its headers (`guardDownload_buildRequest`). Behind any number of
proxies a client sees what it would see of the last one, if the key is in
the query (`downloads_through_layers`), and a worker reads the file from
where it wants to (`worker_reads_through_layers`).
-/
import ForwardProxy.IdList.DownloadTheorems
import ForwardProxy.Servers.LayeredProxy

namespace ForwardProxy.Servers

open ForwardProxy.Datastore ForwardProxy.Effect
open ForwardProxy.IdList (parseU64 parseU64_toString parseU64_le u64Max not_mem_digits
  contentRangeText contentRangeStartsAt_text)

/-! ## Headers -/

@[simp] theorem getOne_nil (name : String) : Headers.getOne [] name = none := rfl

theorem getOne_cons (header : String × String) (headers : Headers) (name : String) :
    Headers.getOne (header :: headers) name =
      if IdList.eqIgnoreAsciiCase header.1 name then some header.2 else headers.getOne name := by
  unfold Headers.getOne
  rw [List.find?_cons]
  split <;> simp_all

@[simp] theorem getOne_append (xs ys : Headers) (name : String) :
    Headers.getOne (xs ++ ys) name = (xs.getOne name).or (Headers.getOne ys name) := by
  induction xs with
  | nil => simp
  | cons header xs ih =>
    rw [List.cons_append, getOne_cons, getOne_cons, ih]
    split <;> rfl

/-! ## The headers of a config -/

/-- A config whose headers tell all of it. -/
def Carried (p : ResponsePayload) : Prop :=
  if p.useProto then p.encoding ≠ .identity
  else p.encoding = .gzip ∨ p.encoding = .brotli ∨
    (p.encoding = .plainText ∧ p.data ≠ dcsNoUpdateJson)

/-- A config that is taken for the answer that there is no update. -/
def NoUpdate (p : ResponsePayload) : Prop :=
  p.useProto = false ∧ p.encoding ≠ .gzip ∧ p.encoding ≠ .brotli ∧ p.data = dcsNoUpdateJson

instance (p : ResponsePayload) : Decidable (Carried p) :=
  inferInstanceAs (Decidable (if p.useProto then p.encoding ≠ .identity
    else p.encoding = .gzip ∨ p.encoding = .brotli ∨
      (p.encoding = .plainText ∧ p.data ≠ dcsNoUpdateJson)))

instance (p : ResponsePayload) : Decidable (NoUpdate p) :=
  inferInstanceAs (Decidable (_ ∧ _ ∧ _ ∧ _))

/-- What a proxy keeps of a config of another one. -/
def received (p : ResponsePayload) : ResponsePayload :=
  if Carried p then p else { p with encoding := .plainText }

/-- What decides what is received. -/
structure Announces (response : HttpResponse) (data : List UInt8) (lcut : Nat)
    (contentType : String) (encoding cacheHit : Option String) : Prop where
  status : response.status = 200
  body : response.body = data
  sinceTime : response.headers.getOne "x-since-time" = some (toString lcut)
  contentType : response.headers.getOne "Content-Type" = some contentType
  encoding : response.headers.getOne "content-encoding" = encoding
  cacheHit : response.headers.getOne "x-cache-hit" = cacheHit

theorem gzipped_announces (data : List UInt8) (lcut : Nat) (deltaUsed : Bool) :
    Announces (RequestPayloads.gzipped data lcut deltaUsed).respondTo data lcut "application/json"
      (some "gzip") none := by
  cases deltaUsed <;> constructor <;>
    simp +decide [RequestPayloads.respondTo, jsonHeaders, deltaUsedHeader, getOne_cons]

theorem brotli_announces (data : List UInt8) (lcut : Nat) (deltaUsed : Bool) :
    Announces (RequestPayloads.brotli data lcut deltaUsed).respondTo data lcut "application/json"
      (some "br") none := by
  cases deltaUsed <;> constructor <;>
    simp +decide [RequestPayloads.respondTo, jsonHeaders, deltaUsedHeader, getOne_cons]

theorem proto_announces (data : List UInt8) (lcut : Nat) (encoding : CompressionEncoder)
    (deltaUsed : Bool) :
    Announces (RequestPayloads.proto data lcut encoding deltaUsed).respondTo data lcut
      "application/octet-stream" (contentEncodingHeaderValue encoding) none := by
  cases hvalue : contentEncodingHeaderValue encoding <;> cases deltaUsed <;> constructor <;>
    simp +decide [RequestPayloads.respondTo, deltaUsedHeader, getOne_cons, hvalue]

theorem plain_announces (data : List UInt8) (lcut : Nat) (deltaUsed : Bool) :
    Announces (RequestPayloads.plain data lcut deltaUsed).respondTo data lcut "application/json" none
      (if data = dcsNoUpdateJson then some "true" else none) := by
  by_cases hnone : data = dcsNoUpdateJson <;> cases deltaUsed <;> constructor <;>
    simp +decide [RequestPayloads.respondTo, jsonHeaders, deltaUsedHeader, getOne_cons, hnone]

/-- Of all encodings but those that need no header the header is read
back. -/
theorem encoder_roundtrip {encoding : CompressionEncoder} (h : encoding ≠ .identity) :
    ((contentEncodingHeaderValue encoding).bind fun value =>
      encoderFromStr value.toList).getD .plainText = encoding := by
  cases encoding <;> first | exact absurd rfl h | decide

/-! ## Configs through layers -/

theorem handleResponse_eq {C : Type} {R : C → Type} {ε : Type} (builder : RequestBuilder C R ε)
    (rc : AuthorizedRequestContext) (lcut : Nat) (isAnUpdate : Bool) (response : HttpResponse)
    (hbuilder : builder.isAnUpdate rc response.body = .pure isAnUpdate) :
    HttpDataProvider.handleResponse builder rc lcut response.status
        (sinceTimeHeader response.headers) (some response.payload) =
      .pure (receive rc lcut isAnUpdate response) := by
  have hdata : response.payload.data = response.body := rfl
  simp only [HttpDataProvider.handleResponse, receive, hdata, hbuilder]
  split
  · rfl
  · split
    · rfl
    · cases isAnUpdate <;> rfl

/-- What is received, from the headers that announce it. -/
theorem receive_of_announces {rc : AuthorizedRequestContext} (sinceTime : Nat)
    {response : HttpResponse} {data : List UInt8} {lcut : Nat} {contentType : String}
    {encoding cacheHit : Option String}
    (huse : rc.useLcut = true) (hlcut : lcut < 2 ^ 64)
    (h : Announces response data lcut contentType encoding cacheHit) :
    receive rc sinceTime (dcsIsAnUpdate response.headers) response =
      if cacheHit.all (· = "false") then
        ⟨.dataAvailable, some ⟨"application/octet-stream".toList <:+: contentType.toList,
          (encoding.bind fun value => encoderFromStr value.toList).getD .plainText, data⟩, lcut⟩
      else HttpDataProvider.handleNoData := by
  have htime : HttpDataProvider.parseSinceTime rc sinceTime
      (sinceTimeHeader response.headers) = lcut := by
    unfold HttpDataProvider.parseSinceTime sinceTimeHeader
    rw [h.sinceTime, Option.bind_some, parseU64_toString hlcut]
    simp [huse]
  have hpayload : response.payload = ⟨"application/octet-stream".toList <:+: contentType.toList,
      (encoding.bind fun value => encoderFromStr value.toList).getD .plainText, data⟩ := by
    simp only [HttpResponse.payload, parseUseProto, receivedEncoding, h.contentType, h.encoding,
      h.body, Option.any_some]
  rw [dcsIsAnUpdate, h.cacheHit]
  cases cacheHit.all (· = "false") with
  | false => simp [receive, h.status, HttpDataProvider.isSuccess]
  | true => simp [receive, h.status, HttpDataProvider.isSuccess, htime, hpayload]

/-- What is received of a config. -/
theorem receive_config (p : ResponsePayload) {lcut : Nat} (hlcut : lcut < 2 ^ 64)
    {rc : AuthorizedRequestContext} (huse : rc.useLcut = true) (sinceTime : Nat)
    (deltaUsed : Bool) {response : HttpResponse}
    (hresponse : (toRequestPayload p lcut deltaUsed).respondTo = response) :
    receive rc sinceTime (dcsIsAnUpdate response.headers) response =
      if NoUpdate p then HttpDataProvider.handleNoData
      else ⟨.dataAvailable, some (received p), lcut⟩ := by
  subst hresponse
  obtain ⟨useProto, encoding, data⟩ := p
  cases useProto with
  | true =>
    rw [show toRequestPayload ⟨true, encoding, data⟩ lcut deltaUsed =
        .proto data lcut encoding deltaUsed from rfl,
      receive_of_announces sinceTime huse hlcut (proto_announces data lcut encoding deltaUsed)]
    by_cases hidentity : encoding = .identity
    · simp +decide [NoUpdate, received, Carried, hidentity, contentEncodingHeaderValue]
    · simp +decide [NoUpdate, received, Carried, hidentity, encoder_roundtrip hidentity]
  | false =>
    by_cases hgzip : encoding = .gzip
    · subst hgzip
      rw [show toRequestPayload ⟨false, .gzip, data⟩ lcut deltaUsed =
          .gzipped data lcut deltaUsed from rfl,
        receive_of_announces sinceTime huse hlcut (gzipped_announces data lcut deltaUsed)]
      simp +decide [NoUpdate, received, Carried]
    by_cases hbrotli : encoding = .brotli
    · subst hbrotli
      rw [show toRequestPayload ⟨false, .brotli, data⟩ lcut deltaUsed =
          .brotli data lcut deltaUsed from rfl,
        receive_of_announces sinceTime huse hlcut (brotli_announces data lcut deltaUsed)]
      simp +decide [NoUpdate, received, Carried]
    · have hplainPayload : toRequestPayload ⟨false, encoding, data⟩ lcut deltaUsed =
          .plain data lcut deltaUsed := by simp [toRequestPayload, hgzip, hbrotli]
      rw [hplainPayload,
        receive_of_announces sinceTime huse hlcut (plain_announces data lcut deltaUsed)]
      by_cases hnone : data = dcsNoUpdateJson
      · simp +decide [NoUpdate, hgzip, hbrotli, hnone]
      · by_cases hplain : encoding = .plainText <;>
          simp +decide [NoUpdate, received, Carried, hgzip, hbrotli, hnone, hplain]

theorem layer_eq (p : ResponsePayload) {lcut : Nat} (hlcut : lcut < 2 ^ 64) {hop : Hop}
    (huse : hop.rc.useLcut = true) :
    layer (p, lcut) hop = if NoUpdate p then none else some (received p, lcut) := by
  simp only [layer, receive_config p hlcut huse hop.sinceTime hop.deltaUsed rfl]
  by_cases hnone : NoUpdate p
  · simp [hnone, HttpDataProvider.handleNoData]
  · simp [hnone]

theorem not_noUpdate_of_carried {p : ResponsePayload} (h : Carried p) : ¬ NoUpdate p := by
  intro hnone
  obtain ⟨hproto, hgzip, hbrotli, hdata⟩ := hnone
  simp [Carried, hproto, hgzip, hbrotli, hdata] at h

/-- What is lost is lost at the first layer. -/
theorem carried_received {p : ResponsePayload} (h : ¬ NoUpdate p) : Carried (received p) := by
  unfold received
  split
  · assumption
  · by_cases hproto : p.useProto = true
    · simp [Carried, hproto]
    · simp_all [Carried, NoUpdate]

theorem received_of_carried {p : ResponsePayload} (h : Carried p) : received p = p := if_pos h

/-- The bytes, the format and the lcut of a config are the same after any
number of layers, and so is its encoding where an answer can tell it. A
JSON body that is neither gzip nor Brotli comes out as plain text, and the
body of the answer without an update does not come out at all. -/
theorem configs_through_layers (p : ResponsePayload) {lcut : Nat} (hlcut : lcut < 2 ^ 64)
    {hops : List Hop} (hne : hops ≠ []) (huse : ∀ hop ∈ hops, hop.rc.useLcut = true) :
    layers hops (p, lcut) = (if NoUpdate p then none else some (received p, lcut)) ∧
      (layers hops (p, lcut) = some (p, lcut) ↔ Carried p) := by
  have hcarried : ∀ (hops : List Hop) (p : ResponsePayload), Carried p →
      (∀ hop ∈ hops, hop.rc.useLcut = true) → layers hops (p, lcut) = some (p, lcut) := by
    intro hops
    induction hops with
    | nil => exact fun _ _ _ => rfl
    | cons hop hops ih =>
      intro p hp huse
      have hlayer := layer_eq p hlcut (huse hop (by simp))
      rw [if_neg (not_noUpdate_of_carried hp), received_of_carried hp] at hlayer
      rw [layers, List.foldlM_cons, hlayer]
      exact ih p hp fun hop hmem => huse hop (by simp [hmem])
  have heq : layers hops (p, lcut) = if NoUpdate p then none else some (received p, lcut) := by
    cases hops with
    | nil => exact absurd rfl hne
    | cons hop hops =>
      rw [layers, List.foldlM_cons, layer_eq p hlcut (huse hop (by simp))]
      by_cases hnone : NoUpdate p
      · simp [hnone]
      · simp only [if_neg hnone]
        exact hcarried hops _ (carried_received hnone) fun hop hmem => huse hop (by simp [hmem])
  refine ⟨heq, fun h => ?_, fun h => hcarried hops p h huse⟩
  rw [heq] at h
  split at h
  · cases h
  · rename_i hnone
    have hreceived : received p = p := by simpa using h
    exact hreceived ▸ carried_received hnone

theorem config_through_two_layers :
    let p : ResponsePayload := ⟨true, .identity, [1, 2]⟩
    let hop : Hop := ⟨.new "secret-k" .v1DownloadConfigSpecs [.gzip], 5, false⟩
    layers [hop, hop] (p, 7) = some (⟨true, .plainText, [1, 2]⟩, 7) := by
  intro p hop
  exact (configs_through_layers p (show 7 < 2 ^ 64 by decide) (show [hop, hop] ≠ [] by simp)
    (by decide)).1.trans (by decide)

/-! ## Requests for id-list files -/

theorem query_not_mem_path (target : String) : '?' ∉ (splitTarget target).1.toList := by
  unfold splitTarget
  cases hsplit : Text.splitOnce ['?'] target.toList with
  | none => exact Text.not_mem_of_splitOnce hsplit
  | some parts =>
    obtain ⟨path, query⟩ := parts
    simpa using (Text.eq_of_splitOnce hsplit).2

theorem splitTarget_append {path : String} (h : '?' ∉ path.toList) (query : Option String) :
    splitTarget (path ++ (query.map ("?" ++ ·)).getD "") = (path, query) := by
  unfold splitTarget
  cases query with
  | none =>
    cases hsplit : Text.splitOnce ['?'] path.toList with
    | none => simp [hsplit]
    | some parts =>
      obtain ⟨before, after⟩ := parts
      exact absurd (by simp [(Text.eq_of_splitOnce hsplit).1]) h
  | some query =>
    have hlist : (path ++ ((some query).map ("?" ++ ·)).getD "").toList =
        path.toList ++ '?' :: query.toList := by simp
    rw [hlist, Text.splitOnce_singleton h]
    simp

theorem trimChars_of_not_blank {s : List Char} (h : ∀ c ∈ s, IdList.isWhitespace c = false) :
    trimChars s = s := by
  have hleft : s.dropWhile IdList.isWhitespace = s := by
    cases s with
    | nil => rfl
    | cons c s => simp [h c (by simp)]
  have hright : s.rdropWhile IdList.isWhitespace = s := by
    rw [List.rdropWhile_eq_self_iff]
    exact fun hne => by simp [h _ (List.getLast_mem hne)]
  rw [trimChars, hleft, hright]

theorem isWhitespace_of_isDigit {c : Char} (h : c.isDigit = true) :
    IdList.isWhitespace c = false := by
  have hbounds : 48 ≤ c.toNat ∧ c.toNat ≤ 57 := by
    simpa [Char.isDigit, UInt32.le_iff_toNat_le] using h
  simp only [IdList.isWhitespace, decide_eq_false_iff_not]
  omega

theorem trimChars_digits (n : Nat) : trimChars (toString n).toList = (toString n).toList :=
  trimChars_of_not_blank fun _ hc => isWhitespace_of_isDigit (IdList.isDigit_of_mem_toString hc)

/-- A request as the guard reads it. -/
structure Authorizes (reader : RequestReader) (request : HttpRequest) (sdkKey fileId : String)
    (rangeStart idListSize : Option Nat) : Prop where
  path : normalizedPathFrom request.path = .v1DownloadIdListFile
  sdkKey : RequestReader.downloadSdkKey (request.headers.getOne "statsig-api-key")
    (reader.signedKey request) = .ok sdkKey
  fileId : parseIdListFileId request.path = some fileId
  rangeStart : parseStrictIdListFileRangeStart request.headers = .ok rangeStart
  idListSize : parseStrictIdListFileSize request.headers = .ok idListSize

theorem guardDownload_of_authorizes {reader : RequestReader} {request : HttpRequest}
    {sdkKey fileId : String} {rangeStart idListSize : Option Nat}
    (h : Authorizes reader request sdkKey fileId rangeStart idListSize) :
    reader.guardDownload request =
      .authorized (reader.downloadContext request sdkKey fileId rangeStart idListSize) := by
  unfold RequestReader.guardDownload RequestReader.checkDownload
  simp [h.path, h.sdkKey, h.fileId, h.rangeStart, h.idListSize, bind, Except.bind]

theorem guardDownload_missing_key {reader : RequestReader} {request : HttpRequest}
    (hpath : normalizedPathFrom request.path = .v1DownloadIdListFile)
    (hheader : request.headers.getOne "statsig-api-key" = none)
    (hsigned : reader.signedKey request = none) :
    reader.guardDownload request = .invalid .missingSdkKey := by
  unfold RequestReader.guardDownload RequestReader.checkDownload
  rw [if_neg (not_not_intro hpath), hheader, hsigned]
  rfl

theorem parseRangeStart_text {start : Nat} (h : start < 2 ^ 64) :
    parseRangeStart ("bytes=" ++ (toString start ++ "-")) = some start := by
  have hlist : ("bytes=" ++ (toString start ++ "-")).toList =
      "bytes=".toList ++ ((toString start).toList ++ ['-']) := by simp
  have hblank : ∀ c ∈ "bytes=".toList ++ ((toString start).toList ++ ['-']),
      IdList.isWhitespace c = false := by
    intro c hc
    rw [List.mem_append, List.mem_append] at hc
    rcases hc with hc | hc | hc
    · have hhead : ("bytes=".toList.all fun c => !IdList.isWhitespace c) = true := by decide
      simpa using List.all_eq_true.mp hhead c hc
    · exact isWhitespace_of_isDigit (IdList.isDigit_of_mem_toString hc)
    · obtain rfl : c = '-' := by simpa using hc
      decide
  have hcomma : ',' ∉ (toString start).toList ++ ['-'] := by
    rw [List.mem_append, not_or]
    exact ⟨not_mem_digits (by decide) start, by decide⟩
  rw [parseRangeStart, hlist, trimChars_of_not_blank hblank,
    List.dropPrefix?_append_of_beq _ (by simp), Option.bind_some,
    if_neg (by simp only [not_or]; exact ⟨by simp, hcomma⟩),
    Text.splitOnce_singleton (not_mem_digits (by decide) start), Option.bind_some]
  rw [if_neg (by simp), String.ofList_toList, parseU64_toString h]

theorem idListSize_lt {headers : Headers} {size : Nat}
    (h : parseStrictIdListFileSize headers = .ok (some size)) : size < 2 ^ 64 := by
  unfold parseStrictIdListFileSize at h
  split at h
  · split at h
    · rename_i hparse
      obtain rfl : _ = size := by simpa using h
      have := parseU64_le hparse
      unfold u64Max at this
      omega
    · cases h
  · cases h

theorem parseStrictIdListFileSize_text {headers : Headers} (idListSize : Option Nat)
    (h : ∀ size, idListSize = some size → size < 2 ^ 64)
    (hget : headers.getOne "statsig-id-list-file-size" = idListSize.map toString) :
    parseStrictIdListFileSize headers = .ok idListSize := by
  unfold parseStrictIdListFileSize
  rw [hget]
  cases idListSize with
  | none => rfl
  | some size =>
    simp only [Option.map_some, trimChars_digits, String.ofList_toList,
      parseU64_toString (h size rfl)]

theorem parseStrictIdListFileRangeStart_text {headers : Headers} {start : Nat} (h : start < 2 ^ 64)
    (hget : headers.getOne "Range" = some ("bytes=" ++ (toString start ++ "-"))) :
    parseStrictIdListFileRangeStart headers = .ok (some start) := by
  simp only [parseStrictIdListFileRangeStart, hget, parseRangeStart_text h]

/-! ## A request that is passed on -/

section Forwarded

variable {reader : RequestReader} {request : HttpRequest} {sdkKey fileId : String}
  {rangeStart idListSize : Option Nat}

theorem buildRequest_headers (rc : RequestContext) :
    (IdListFileRequestBuilder.buildRequest rc).headers.getOne "statsig-api-key" = none ∧
      (IdListFileRequestBuilder.buildRequest rc).headers.getOne "Range" =
        (if rc.rangeStart = some 0 then some "bytes=0-" else none) ∧
      (IdListFileRequestBuilder.buildRequest rc).headers.getOne "statsig-id-list-file-size" =
        rc.idListSize.map toString := by
  by_cases hstart : rc.rangeStart = some 0 <;> cases hsize : rc.idListSize <;>
    simp +decide [IdListFileRequestBuilder.buildRequest, getOne_cons, hstart, hsize]

theorem signed_eq (h : Authorizes reader request sdkKey fileId rangeStart idListSize)
    {signed : String} (hsigned : reader.signedKey request = some signed) : sdkKey = signed := by
  have hkey := h.sdkKey
  rw [hsigned] at hkey
  cases hget : request.headers.getOne "statsig-api-key" with
  | none => simpa [RequestReader.downloadSdkKey, hget] using hkey.symm
  | some header =>
    simp only [RequestReader.downloadSdkKey, hget] at hkey
    split at hkey
    · cases hkey
    · simpa using hkey.symm

theorem splitTarget_buildRequest (reader : RequestReader) (request : HttpRequest)
    (sdkKey fileId : String) (rangeStart idListSize : Option Nat) :
    splitTarget (IdListFileRequestBuilder.buildRequest
      (reader.downloadContext request sdkKey fileId rangeStart idListSize)).target =
        (request.path, request.query) :=
  splitTarget_append (query_not_mem_path request.target) request.query

theorem rangeStart_buildRequest (rc : RequestContext) :
    parseStrictIdListFileRangeStart (IdListFileRequestBuilder.buildRequest rc).headers =
      .ok (rc.rangeStart.filter (· = 0)) := by
  have hrange := (buildRequest_headers rc).2.1
  by_cases hstart : rc.rangeStart = some 0
  · rw [if_pos hstart] at hrange
    rw [parseStrictIdListFileRangeStart_text (show 0 < 2 ^ 64 by decide) hrange, hstart]
    rfl
  · rw [if_neg hstart] at hrange
    simp only [parseStrictIdListFileRangeStart, hrange]
    cases hrc : rc.rangeStart with
    | none => rfl
    | some start =>
      have hne : start ≠ 0 := by simpa [hrc] using hstart
      rw [Option.filter_some_neg (by simpa using hne)]

/-- The path and the query are passed on as they are, the size of the list
as a number, and of the start of the range whether it is that of the
file. -/
theorem authorizes_buildRequest
    (h : Authorizes reader request sdkKey fileId rangeStart idListSize) {signed : String}
    (hsigned : reader.signedKey request = some signed) {forwarded : HttpRequest}
    (hforwarded : forwarded = IdListFileRequestBuilder.buildRequest
      (reader.downloadContext request sdkKey fileId rangeStart idListSize)) :
    reader.signedKey forwarded = some signed ∧
      Authorizes reader forwarded sdkKey fileId (rangeStart.filter (· = 0)) idListSize := by
  obtain ⟨hheader, -, hsize⟩ := buildRequest_headers
    (reader.downloadContext request sdkKey fileId rangeStart idListSize)
  have htarget := splitTarget_buildRequest reader request sdkKey fileId rangeStart
    idListSize
  rw [← hforwarded] at hheader hsize htarget
  have hpath : forwarded.path = request.path := congrArg Prod.fst htarget
  have hkey : reader.signedKey forwarded = some signed := by
    rw [← hsigned]
    exact congrArg (fun parts => parts.2.bind reader.extractDownloadIdListFileSdkKey) htarget
  refine ⟨hkey, by rw [hpath]; exact h.path, ?_, by rw [hpath]; exact h.fileId, ?_, ?_⟩
  · rw [hheader, hkey, signed_eq h hsigned]
    rfl
  · rw [hforwarded]
    exact rangeStart_buildRequest _
  · refine parseStrictIdListFileSize_text idListSize (fun size hsome => ?_) hsize
    exact idListSize_lt (hsome ▸ h.idListSize)

/-- Without a key in its query a request is refused upstream, whatever its
headers are. -/
theorem guardDownload_unsigned
    (h : Authorizes reader request sdkKey fileId rangeStart idListSize)
    (hsigned : reader.signedKey request = none) {forwarded : HttpRequest}
    (hforwarded : forwarded = IdListFileRequestBuilder.buildRequest
      (reader.downloadContext request sdkKey fileId rangeStart idListSize)) :
    reader.guardDownload forwarded = .invalid .missingSdkKey := by
  obtain ⟨hheader, -, -⟩ := buildRequest_headers
    (reader.downloadContext request sdkKey fileId rangeStart idListSize)
  have htarget := splitTarget_buildRequest reader request sdkKey fileId rangeStart
    idListSize
  rw [← hforwarded] at hheader htarget
  have hpath : forwarded.path = request.path := congrArg Prod.fst htarget
  have hkey : reader.signedKey forwarded = none := by
    rw [← hsigned]
    exact congrArg (fun parts => parts.2.bind reader.extractDownloadIdListFileSdkKey) htarget
  exact guardDownload_missing_key (hpath ▸ h.path) hheader hkey

end Forwarded

/-! ## A proxy with an empty cache -/

theorem processRequest_attempt {C : Type} {R : C → Type} {ε : Type} (builder : RequestBuilder C R ε)
    (rc : AuthorizedRequestContext) (lcut : Nat) (clear isAnUpdate : Bool) (response : HttpResponse)
    (hstatus : builder.onStatus rc response.status = .pure ())
    (hupdate : builder.isAnUpdate rc response.body = .pure isAnUpdate) :
    BackgroundDataProvider.processRequest builder rc lcut clear response.attempt response.attempt =
      BackgroundDataProvider.processResult builder rc lcut clear
        (receive rc lcut isAnUpdate response) := by
  rw [BackgroundDataProvider.processRequest, HttpDataProvider.get_eq]
  simp only [HttpDataProvider.answered, HttpResponse.attempt, HttpDataProvider.settle, hstatus]
  rw [handleResponse_eq builder rc lcut isAnUpdate response hupdate]
  rfl

/-- An answer from upstream that is not a success has no body for the
store. -/
theorem receive_failure (rc : AuthorizedRequestContext) (lcut : Nat) (isAnUpdate : Bool)
    {response : HttpResponse}
    (h : ¬ (response.status ≠ 204 ∧ HttpDataProvider.isSuccess response.status = true)) :
    ∃ result, result ≠ .dataAvailable ∧
      receive rc lcut isAnUpdate response = ⟨result, none, 0⟩ := by
  unfold receive
  by_cases hnone : response.status = 204
  · rw [if_pos hnone]
    exact ⟨.noDataAvailable, by simp, rfl⟩
  · have hok : HttpDataProvider.isSuccess response.status = false := by simpa [hnone] using h
    rw [if_neg hnone, hok]
    refine ⟨_, ?_, rfl⟩
    dsimp only
    split
    · simp
    · split <;> simp

/-- Of an answer from upstream a proxy with an empty cache keeps the body of
a success, and nothing else. -/
theorem getOrFetch_cold (rc : FileRequest) {fileId : String}
    (hid : rc.fileId = some fileId) (huse : rc.toAuthorizedRequestContext.useLcut = false)
    (response : HttpResponse) :
    (fileServerRunner.run 5 (IdListFileStore.getOrFetch rc) FileServer.new
      [response.attempt]).map Prod.snd =
        some (.ok (if response.status ≠ 204 ∧ HttpDataProvider.isSuccess response.status then
          some response.body else none)) := by
  have hget (s : FileServer) (w : List Attempt) : fileServerRunner.next s (.storeGet fileId) w =
      some (s.files.store fileId, s, w) := rfl
  have hmay (s : FileServer) (w : List Attempt) :
      fileServerRunner.next s (.mayFetch rc.toAuthorizedRequestContext) w = some (true, s, w) := rfl
  have hup (s : FileServer) :
      fileServerRunner.next s (.upstream rc.toAuthorizedRequestContext) [response.attempt] =
        some (some (response.attempt, response.attempt),
          s.answer rc.toAuthorizedRequestContext response.attempt, []) := rfl
  have hupdate (s : FileServer) (context : ResponseContext) :
      fileServerRunner.next s (.update rc.toAuthorizedRequestContext context) [] =
        some ((), { s with files := s.files.update rc.toAuthorizedRequestContext context }, []) :=
    rfl
  have hanswer : (FileServer.new.answer rc.toAuthorizedRequestContext response.attempt).files =
      IdListFileStore.new := by
    unfold FileServer.answer
    split <;> rfl
  have hempty : IdListFileStore.new.store fileId = none := rfl
  simp only [IdListFileStore.getOrFetch, IdListFileStore.getStoredBody, hid, cacheGet, Prog.cmd,
    bind, Prog.bind, Runner.run, hget, show FileServer.new.files.store fileId = none from rfl,
    Option.any_none, Bool.false_eq_true, if_false, IdListFileStore.fetchBody, reduceCtorEq,
    foregroundFetch, mayFetch, upstream, Bool.not_true, hmay, hup,
    processRequest_attempt idListFileRequestBuilder rc.toAuthorizedRequestContext 0 false true
      response rfl rfl]
  by_cases hok : response.status ≠ 204 ∧ HttpDataProvider.isSuccess response.status = true
  · have hreceive : receive rc.toAuthorizedRequestContext 0 true response =
        ⟨.dataAvailable, some response.payload, 0⟩ := by
      simp [receive, hok.1, hok.2, HttpDataProvider.parseSinceTime, huse]
    simp [hreceive, hok, BackgroundDataProvider.processResult, Prog.when,
      BackgroundDataProvider.notifyResult, Prog.bind, Runner.run, bind, hget, huse,
      idListFileRequestBuilder, hupdate, Prog.cmd, IdListFileStore.update, hid,
      IdListFileStore.insert]
    rfl
  · obtain ⟨result, hne, hreceive⟩ := receive_failure rc.toAuthorizedRequestContext 0 true hok
    rw [if_neg hok]
    cases result <;>
      simp_all [BackgroundDataProvider.processResult, BackgroundDataProvider.notifyResult,
        Prog.when, Prog.bind, Runner.run, bind, Prog.cmd, idListFileRequestBuilder,
        IdListFileStore.update]

theorem coldGetOrFetch_eq (answer : HttpRequest → HttpResponse) {rc : RequestContext}
    (hpath : rc.path = .v1DownloadIdListFile) {fileId : String} (hid : rc.fileId = some fileId)
    {response : HttpResponse}
    (hresponse : answer (IdListFileRequestBuilder.buildRequest rc) = response) :
    coldGetOrFetch answer rc =
      if response.status ≠ 204 ∧ HttpDataProvider.isSuccess response.status then
        some response.body else none := by
  have huse : rc.fileRequest.toAuthorizedRequestContext.useLcut = false := by
    simp [AuthorizedRequestContext.useLcut, RequestContext.fileRequest, hpath]
  have hrun := getOrFetch_cold rc.fileRequest hid huse response
  rw [coldGetOrFetch, hresponse]
  split
  · rename_i heq
    simpa [heq] using hrun
  · rename_i hne
    obtain ⟨⟨s, o⟩, heq, ho⟩ := Option.map_eq_some_iff.mp hrun
    exact absurd heq (by rw [show o = _ from ho]; exact hne _ _)

/-! ## Id-list files through layers -/

section Layers

variable {reader : RequestReader} {files : String → String → Option (List UInt8)}
  {request : HttpRequest} {sdkKey fileId : String} {rangeStart idListSize : Option Nat}

/-- The answer to an authorized request, from the body the store gives. -/
def downloadAnswer (rangeStart : Option Nat) : Option (List UInt8) → HttpResponse
  | none => RequestPayloads.respondTo .unauthorized
  | some body =>
    match rangeStart with
    | none => (RequestPayloads.text body 200 none).respondTo
    | some start =>
      if body.length ≤ start then (RequestPayloads.rangeNotSatisfiable body.length).respondTo
      else (RequestPayloads.text (body.drop start) 206
        (some (contentRangeText start (body.length - 1) body.length))).respondTo

theorem route_authorized (store : RequestContext → Option (List UInt8))
    (h : Authorizes reader request sdkKey fileId rangeStart idListSize) :
    getDownloadIdListFileRoute reader store request =
      downloadAnswer rangeStart
        (store (reader.downloadContext request sdkKey fileId rangeStart idListSize)) := by
  simp only [getDownloadIdListFileRoute, guardDownload_of_authorizes h]
  cases store (reader.downloadContext request sdkKey fileId rangeStart idListSize) with
  | none => rfl
  | some body =>
    cases rangeStart with
    | none => rfl
    | some start =>
      simp only [buildDownloadIdListFilePayload, downloadAnswer]
      have hstart : (reader.downloadContext request sdkKey fileId (some start)
        idListSize).rangeStart = some start := rfl
      simp only [hstart]
      split <;> rfl

/-- The body that comes of an answer, unless an empty file was asked for
from its start. -/
theorem body_of_downloadAnswer (body : Option (List UInt8)) :
    let response := downloadAnswer (rangeStart.filter (· = 0)) body
    (if response.status ≠ 204 ∧ HttpDataProvider.isSuccess response.status then
        some response.body else none) =
      if rangeStart = some 0 ∧ body = some [] then none else body := by
  cases body with
  | none => simp +decide [downloadAnswer, RequestPayloads.respondTo]
  | some body =>
    by_cases hstart : rangeStart = some 0
    · by_cases hempty : body = []
      · simp +decide [hstart, hempty, downloadAnswer, RequestPayloads.respondTo]
      · have hfilter : (some 0).filter (fun start : Nat => start = 0) = some 0 := rfl
        rw [hstart, hfilter]
        simp +decide [hempty, downloadAnswer, RequestPayloads.respondTo]
    · have hfilter : rangeStart.filter (· = 0) = none := by
        cases rangeStart with
        | none => rfl
        | some start => exact Option.filter_some_neg (by simpa using hstart)
      rw [hfilter, if_neg (fun h => hstart h.1)]
      simp +decide [downloadAnswer, RequestPayloads.respondTo]

/-- A proxy with an empty cache in front of one with the store `store`. -/
theorem coldGetOrFetch_route (store : RequestContext → Option (List UInt8))
    (h : Authorizes reader request sdkKey fileId rangeStart idListSize) {forwarded : HttpRequest}
    (hforwarded : forwarded = IdListFileRequestBuilder.buildRequest
      (reader.downloadContext request sdkKey fileId rangeStart idListSize)) :
    coldGetOrFetch (getDownloadIdListFileRoute reader store)
        (reader.downloadContext request sdkKey fileId rangeStart idListSize) =
      let body := store (reader.downloadContext forwarded sdkKey fileId (rangeStart.filter (· = 0))
        idListSize)
      if reader.signedKey request = none ∨ (rangeStart = some 0 ∧ body = some []) then none
      else body := by
  rw [coldGetOrFetch_eq _ rfl rfl (by rw [← hforwarded])]
  cases hsigned : reader.signedKey request with
  | none =>
    rw [getDownloadIdListFileRoute, guardDownload_unsigned h hsigned hforwarded]
    simp +decide [RequestPayloads.respondTo]
  | some signed =>
    obtain ⟨-, hauthorizes⟩ := authorizes_buildRequest h hsigned hforwarded
    simp only [route_authorized store hauthorizes, body_of_downloadAnswer, reduceCtorEq, false_or]

/-- What a proxy with others between it and the files has in its store. -/
theorem coldGetOrFetch_downloadThrough (depth : Nat)
    (h : Authorizes reader request sdkKey fileId rangeStart idListSize) :
    coldGetOrFetch (downloadThrough reader files depth)
        (reader.downloadContext request sdkKey fileId rangeStart idListSize) =
      if reader.signedKey request = none ∨ (rangeStart = some 0 ∧ files sdkKey fileId = some [])
      then none
      else files sdkKey fileId := by
  induction depth generalizing request rangeStart with
  | zero => exact coldGetOrFetch_route _ h rfl
  | succ depth ih =>
    rw [downloadThrough, coldGetOrFetch_route _ h rfl]
    cases hsigned : reader.signedKey request with
    | none => simp
    | some signed =>
      obtain ⟨hkey, hauthorizes⟩ := authorizes_buildRequest h hsigned rfl
      have hzero : rangeStart.filter (· = 0) = some 0 ↔ rangeStart = some 0 := by
        cases rangeStart <;> simp
      simp only [ih hauthorizes, hkey, hzero, reduceCtorEq, false_or]
      split <;> simp_all

theorem downloadThrough_zero (h : Authorizes reader request sdkKey fileId rangeStart idListSize) :
    downloadThrough reader files 0 request = downloadAnswer rangeStart (files sdkKey fileId) :=
  route_authorized _ h

theorem downloadThrough_succ (depth : Nat)
    (h : Authorizes reader request sdkKey fileId rangeStart idListSize) :
    downloadThrough reader files (depth + 1) request = downloadAnswer rangeStart
      (if reader.signedKey request = none ∨ (rangeStart = some 0 ∧ files sdkKey fileId = some [])
        then none
        else files sdkKey fileId) := by
  rw [downloadThrough, route_authorized _ h, coldGetOrFetch_downloadThrough depth h]

end Layers

/-! ## The worker -/

theorem normalizedPathFrom_idListFile {path fileId : String}
    (h : parseIdListFileId path = some fileId) :
    normalizedPathFrom path = .v1DownloadIdListFile := by
  have hstarts : idListFilePath.toList <+: path.toList := by
    unfold parseIdListFileId segmentAfter at h
    cases hdrop : path.toList.dropPrefix? idListFilePath.toList with
    | none => simp [hdrop] at h
    | some rest =>
      obtain ⟨_, hpath, heq⟩ := List.dropPrefix?_eq_some_iff.mp hdrop
      exact ⟨rest, by rw [hpath, eq_of_beq heq]⟩
  have hother (start : List Char) (hne : ¬ start <+: idListFilePath.toList)
      (hne' : ¬ idListFilePath.toList <+: start) : ¬ start <+: path.toList :=
    fun hstart => (List.prefix_or_prefix_of_prefix hstart hstarts).elim hne hne'
  have hfile : "/v1/download_id_list_file".toList <+: path.toList :=
    List.IsPrefix.trans (by decide) hstarts
  rw [normalizedPathFrom, if_neg (hother _ (by decide) (by decide)),
    if_neg (hother _ (by decide) (by decide)), if_pos hfile]

theorem authorizes_buildDownloadRequest (reader : RequestReader) {target fileId sdkKey : String}
    {start size : Nat} (hstart : start < 2 ^ 64) (hsize : size < 2 ^ 64)
    (hfile : parseIdListFileId (splitTarget target).1 = some fileId)
    (hkey : (splitTarget target).2.bind reader.extractDownloadIdListFileSdkKey = some sdkKey) :
    Authorizes reader (buildDownloadRequest target (toString start ++ "-") size) sdkKey fileId
      (some start) (some size) where
  path := normalizedPathFrom_idListFile hfile
  sdkKey := by
    have hheader : (buildDownloadRequest target (toString start ++ "-") size).headers.getOne
        "statsig-api-key" = none := by
      simp +decide [buildDownloadRequest, getOne_cons]
    rw [hheader, show reader.signedKey (buildDownloadRequest target (toString start ++ "-") size) =
      some sdkKey from hkey]
    rfl
  fileId := hfile
  rangeStart := parseStrictIdListFileRangeStart_text hstart (by
    simp +decide [buildDownloadRequest, getOne_cons])
  idListSize := by
    refine parseStrictIdListFileSize_text (some size) ?_ ?_
    · rintro _ ⟨⟩
      exact hsize
    · simp +decide [buildDownloadRequest, getOne_cons]

theorem downloadFile_status {start : Nat} {response : HttpResponse} {delivered : IdList.Response}
    (h : Delivers response delivered) (hstatus : ¬ (200 ≤ response.status ∧ response.status < 300)) :
    downloadFile start delivered = .error (.worker (.originStatus response.status)) := by
  have hfail : delivered.status < 200 ∨ 300 ≤ delivered.status := by
    rw [h.status]
    omega
  rw [downloadFile, if_pos hfail, h.status]

/-- A range that goes on to the end of the file. -/
theorem downloadFile_range {body : List UInt8} {start : Nat} {delivered : IdList.Response}
    (hstart : start < 2 ^ 64) (hlt : start < body.length)
    (h : Delivers (downloadAnswer (some start) (some body)) delivered) :
    downloadFile start delivered = .ok (delivered.pieces, delivered.fault) ∧
      delivered.body = body.drop start := by
  have hanswer : downloadAnswer (some start) (some body) = (RequestPayloads.text (body.drop start)
      206 (some (contentRangeText start (body.length - 1) body.length))).respondTo := by
    simp only [downloadAnswer, if_neg (Nat.not_le.mpr hlt)]
  rw [hanswer] at h
  have hstatus : delivered.status = 206 := h.status
  have hrange : delivered.contentRange =
      some (contentRangeText start (body.length - 1) body.length) := by
    rw [h.contentRange]
    simp +decide [RequestPayloads.respondTo, getOne_cons]
  have hencoding : delivered.contentEncoding = none := by
    rw [h.contentEncoding]
    simp +decide [RequestPayloads.respondTo, getOne_cons]
  have hstarts : IdList.contentRangeStartsAt (contentRangeText start (body.length - 1) body.length)
      start = true := contentRangeStartsAt_text (by unfold u64Max; omega)
  refine ⟨?_, h.body⟩
  simp [downloadFile, hstatus, hrange, hstarts, IdList.checkEncoding, hencoding]

/-- What a worker reads of a file through any number of proxies with empty
caches: the file from where it wants to, or one of the errors that the
origin would answer with. -/
theorem worker_reads_through_layers (reader : RequestReader)
    (files : String → String → Option (List UInt8)) (depth : Nat) {target fileId : String}
    {start size : Nat} (hstart : start < 2 ^ 64) (hsize : size < 2 ^ 64)
    (hfile : parseIdListFileId (splitTarget target).1 = some fileId) {delivered : IdList.Response}
    (h : Delivers (downloadThrough reader files depth
      (buildDownloadRequest target (toString start ++ "-") size)) delivered) :
    match (splitTarget target).2.bind reader.extractDownloadIdListFileSdkKey with
    | none => downloadFile start delivered = .error (.worker (.originStatus 400))
    | some sdkKey =>
      match files sdkKey fileId with
      | none => downloadFile start delivered = .error (.worker (.originStatus 401))
      | some body =>
        if start < body.length then
          downloadFile start delivered = .ok (delivered.pieces, delivered.fault) ∧
            delivered.body = body.drop start
        else
          downloadFile start delivered = .error (.worker (.originStatus
            (if 0 < depth ∧ start = 0 then 401 else 416))) := by
  cases hkey : (splitTarget target).2.bind reader.extractDownloadIdListFileSdkKey with
  | none =>
    have hguard : reader.guardDownload
        (buildDownloadRequest target (toString start ++ "-") size) = .invalid .missingSdkKey := by
      have hheader : (buildDownloadRequest target (toString start ++ "-") size).headers.getOne
          "statsig-api-key" = none := by
        simp +decide [buildDownloadRequest, getOne_cons]
      exact guardDownload_missing_key (normalizedPathFrom_idListFile hfile) hheader hkey
    have hanswer : downloadThrough reader files depth
        (buildDownloadRequest target (toString start ++ "-") size) =
          (RequestPayloads.error 400 "Missing statsig-api-key").respondTo := by
      cases depth <;> simp only [downloadThrough, getDownloadIdListFileRoute, hguard] <;> rfl
    rw [hanswer] at h
    exact downloadFile_status h (show ¬ (200 ≤ 400 ∧ 400 < 300) by decide)
  | some sdkKey =>
    have hauthorizes := authorizes_buildDownloadRequest reader hstart hsize hfile hkey
    have hsigned : reader.signedKey (buildDownloadRequest target (toString start ++ "-") size) =
      some sdkKey := hkey
    have hanswer : downloadThrough reader files depth
        (buildDownloadRequest target (toString start ++ "-") size) =
          downloadAnswer (some start)
            (if 0 < depth ∧ start = 0 ∧ files sdkKey fileId = some [] then none
              else files sdkKey fileId) := by
      cases depth with
      | zero => simpa using downloadThrough_zero hauthorizes
      | succ depth =>
        rw [downloadThrough_succ depth hauthorizes, hsigned]
        simp
    rw [hanswer] at h
    dsimp only
    generalize files sdkKey fileId = stored at h ⊢
    cases stored with
    | none =>
      rw [ite_self] at h
      exact downloadFile_status h (show ¬ (200 ≤ 401 ∧ 401 < 300) by decide)
    | some body =>
      by_cases hlt : start < body.length
      · rw [if_neg (by rintro ⟨-, -, hnil⟩; simp [Option.some.inj hnil] at hlt)] at h
        simpa only [if_pos hlt] using downloadFile_range hstart hlt h
      · simp only [if_neg hlt]
        by_cases hlayered : 0 < depth ∧ start = 0
        · obtain ⟨hdepth, rfl⟩ := hlayered
          obtain rfl : body = [] := by simpa using hlt
          rw [if_pos ⟨hdepth, rfl, rfl⟩] at h
          rw [if_pos ⟨hdepth, rfl⟩]
          exact downloadFile_status h (show ¬ (200 ≤ 401 ∧ 401 < 300) by decide)
        · rw [if_neg fun hboth => hlayered ⟨hboth.1, hboth.2.1⟩] at h
          rw [if_neg hlayered]
          simp only [downloadAnswer, if_pos (Nat.not_lt.mp hlt)] at h
          exact downloadFile_status h (show ¬ (200 ≤ 416 ∧ 416 < 300) by decide)

/-- A reader of requests that are signed with one key. -/
def oneKeyReader : RequestReader where
  queryPairs _ := some [("k", "secret-a")]
  queryFields _ := [("k", "secret-a")]
  qZero _ := false

theorem worker_reads_through_two_layers :
    let target := "/v1/download_id_list_file/f?k=secret-a"
    let request := buildDownloadRequest target (toString 1 ++ "-") 3
    let response := downloadThrough oneKeyReader (fun _ _ => some [10, 20, 30]) 2 request
    let delivered : IdList.Response :=
      { status := 206, contentRange := some "bytes 1-2/3",
        pieces := [⟨[20], by decide⟩, ⟨[30], by decide⟩] }
    Delivers response delivered ∧ downloadFile 1 delivered = .ok (delivered.pieces, none) := by
  intro target request response delivered
  have hresponse : response = ⟨206, [("Content-Type", "application/octet-stream"),
      ("Accept-Ranges", "bytes"), ("Content-Range", "bytes 1-2/3")], [20, 30]⟩ := by decide +kernel
  have hdelivers : Delivers response delivered := by
    rw [hresponse]
    exact ⟨rfl, by decide, by decide, by decide⟩
  have hfile : parseIdListFileId (splitTarget target).1 = some "f" := by decide +kernel
  have hkey : (splitTarget target).2.bind oneKeyReader.extractDownloadIdListFileSdkKey =
      some "secret-a" := by decide +kernel
  have hread := worker_reads_through_layers oneKeyReader (fun _ _ => some [10, 20, 30]) 2
    (show 1 < 2 ^ 64 by decide) (show 3 < 2 ^ 64 by decide) hfile hdelivers
  rw [hkey] at hread
  exact ⟨hdelivers, hread.1⟩

end ForwardProxy.Servers
