/-
ForwardProxy.Servers.BlobRequestTheorems — what one poll of a blob store
brings.

The origins may move on while the poll is on its way (`originAbove`).
Whatever they answer, a config that is brought has been published, and a
poll that is answered brings the proxy at least as far as its origin was
when the poll was sent (`wp_get`).
-/
import ForwardProxy.Effect.Wp
import ForwardProxy.Servers.BlobRequest
import ForwardProxy.Servers.ConfigChainTheorems

namespace ForwardProxy.Servers

open ForwardProxy.Datastore ForwardProxy.Effect

variable {cfg : PollingConfig}

/-! ## Results -/

/-- The config in a result. -/
def resultConfig (dp : DataProviderResult) : Option ConfigSpecForCompany :=
  match dp.result, dp.body with
  | .dataAvailable, some config => some ⟨dp.lcut, config⟩
  | _, _ => none

theorem takeResult_takenIn {rc : AuthorizedRequestContext} (huse : rc.useLcut = true)
    (clear : Bool) (s : SpecStores) (sinceTime : Nat) (dp : DataProviderResult) :
    TakenIn rc clear s sinceTime (resultConfig dp) (takeResult rc clear s sinceTime dp) := by
  rw [takeResult, after_processResult huse]
  obtain ⟨result, body, lcut⟩ := dp
  cases result with
  | dataAvailable =>
    cases body with
    | none => exact .inr ⟨rfl, .inl rfl⟩
    | some config => exact .inl ⟨⟨lcut, config⟩, rfl, rfl⟩
  | unauthorized =>
    cases clear with
    | true => exact .inr ⟨rfl, .inr ⟨rfl, rfl⟩⟩
    | false => exact .inr ⟨rfl, .inl rfl⟩
  | noDataAvailable => exact .inr ⟨rfl, .inl rfl⟩
  | error => exact .inr ⟨rfl, .inl rfl⟩
  | clientError => exact .inr ⟨rfl, .inl rfl⟩

/-- What a result brings: a config that has been published, and one that is
up to date if the poll was answered. -/
structure Brings (published : List ConfigSpecForCompany) (floor sinceTime : Nat)
    (dp : DataProviderResult) : Prop where
  genuine : ∀ new, resultConfig dp = some new → new ∈ published
  upToDate : dp.result = .dataAvailable ∨ dp.result = .noDataAvailable →
    floor ≤ sinceTime ∨ ∃ new, resultConfig dp = some new ∧ floor ≤ new.lcut

variable {published : List ConfigSpecForCompany} {floor sinceTime : Nat}

theorem brings_handleError (status : Option Nat) :
    Brings published floor sinceTime (HttpDataProvider.handleError status) := by
  have hresult : (HttpDataProvider.handleError status).result ≠ .dataAvailable ∧
      (HttpDataProvider.handleError status).result ≠ .noDataAvailable := by
    cases status with
    | none => simp [HttpDataProvider.handleError]
    | some status =>
      simp only [HttpDataProvider.handleError]
      split
      · simp
      · split <;> simp
  constructor
  · intro new hnew
    simp [resultConfig, HttpDataProvider.handleError] at hnew
  · rintro (h | h)
    · exact absurd h hresult.1
    · exact absurd h hresult.2

theorem brings_noData (h : floor ≤ sinceTime) :
    Brings published floor sinceTime HttpDataProvider.handleNoData where
  genuine _ hnew := by simp [resultConfig, HttpDataProvider.handleNoData] at hnew
  upToDate _ := .inl h

theorem brings_config {lcut : Nat} {config : ResponsePayload} (hmem : ⟨lcut, config⟩ ∈ published)
    (hfloor : floor ≤ sinceTime ∨ floor ≤ lcut) :
    Brings published floor sinceTime ⟨.dataAvailable, some config, lcut⟩ where
  genuine new hnew := by
    obtain rfl := Option.some.inj hnew
    exact hmem
  upToDate _ := hfloor.imp_right fun h => ⟨⟨lcut, config⟩, rfl, h⟩

/-! ## Answers -/

theorem isSuccess_of_le {status : Nat} (h : 300 ≤ status) :
    HttpDataProvider.isSuccess status = false := by
  have hnot : ¬ (200 ≤ status ∧ status ≤ 299) := by omega
  exact decide_eq_false hnot

/-- Whatever comes of an answer that is no success, it is an error. -/
theorem settle_refused (rc : AuthorizedRequestContext) (lcut : Nat) {response : HttpResponse}
    (whole : Bool) (h : 300 ≤ response.status) :
    (OriginReply.response response whole).settle rc lcut =
      HttpDataProvider.handleError (some response.status) := by
  have hnone : response.status ≠ 204 := by omega
  cases whole <;> simp [OriginReply.settle, receive, hnone, isSuccess_of_le h]

theorem settle_broken (rc : AuthorizedRequestContext) (lcut : Nat) {response : HttpResponse}
    (h : response.status = 200) :
    (OriginReply.response response false).settle rc lcut =
      HttpDataProvider.handleError (some 200) := by
  simp [OriginReply.settle, h]

theorem settle_config {rc : AuthorizedRequestContext} (huse : rc.useLcut = true)
    (sinceTime lcut : Nat) {response : HttpResponse} (hstatus : response.status = 200)
    (hheader : sinceTimeHeader response.headers = some lcut)
    (hupdate : dcsIsAnUpdate response.headers = true) :
    (OriginReply.response response true).settle rc sinceTime =
      ⟨.dataAvailable, some response.payload, lcut⟩ := by
  simp [OriginReply.settle, receive, hstatus, HttpDataProvider.isSuccess, hupdate,
    HttpDataProvider.parseSinceTime, huse, hheader]

theorem Blob.sinceTimeHeader_eq (blob : Blob) : sinceTimeHeader blob.headers = some blob.lcut := by
  rw [sinceTimeHeader, blob.no_since_time]
  exact blob.metadata

theorem Blob.settle_eq (blob : Blob) {rc : AuthorizedRequestContext} (huse : rc.useLcut = true)
    (sinceTime : Nat) :
    (OriginReply.response blob.response true).settle rc sinceTime =
      ⟨.dataAvailable, some blob.response.payload, blob.lcut⟩ := by
  refine settle_config huse sinceTime blob.lcut rfl blob.sinceTimeHeader_eq ?_
  simp [dcsIsAnUpdate, Blob.response, blob.no_cache_hit]

theorem brings_cdn {o : Origins} {rc rc' : AuthorizedRequestContext} (huse : rc.useLcut = true)
    {reply : OriginReply} (hanswer : Answers o (.getCdn rc' sinceTime) reply)
    (hfloor : floor ≤ o.cdnLcut ∨ floor = 0)
    (hgiven : ∀ new ∈ givenOut (.getCdn rc' sinceTime) reply, new ∈ published) :
    Brings published floor sinceTime (reply.settle rc sinceTime) := by
  cases hanswer with
  | connectError => exact brings_handleError none
  | otherError => exact brings_handleError none
  | refused _ response whole hstatus hfound =>
    rw [settle_refused rc sinceTime whole hstatus]
    exact brings_handleError _
  | noConfig _ _ response whole hstatus =>
    rw [settle_refused rc sinceTime whole (by omega)]
    exact brings_handleError _
  | config _ _ lcut response whole hstatus hheader hupdate hnewest =>
    cases whole with
    | false =>
      rw [settle_broken rc sinceTime hstatus]
      exact brings_handleError _
    | true =>
      rw [settle_config huse sinceTime lcut hstatus hheader hupdate]
      refine brings_config (hgiven _ (by simp [givenOut, hheader])) ?_
      omega
  | noUpdate _ _ response whole hstatus hnewest =>
    have hle : floor ≤ sinceTime := by omega
    rcases hstatus with hstatus | ⟨hstatus, hupdate⟩
    · have hnone : (OriginReply.response response whole).settle rc sinceTime =
          HttpDataProvider.handleNoData := by
        cases whole <;> simp [OriginReply.settle, receive, hstatus]
      rw [hnone]
      exact brings_noData hle
    · cases whole with
      | false =>
        rw [settle_broken rc sinceTime hstatus]
        exact brings_handleError _
      | true =>
        have hnone : (OriginReply.response response true).settle rc sinceTime =
            HttpDataProvider.handleNoData := by
          simp [OriginReply.settle, receive, hstatus, HttpDataProvider.isSuccess, hupdate]
        rw [hnone]
        exact brings_noData hle

/-- The origins while a poll is on its way: they have been as far as `floor`,
and what they give out is published. -/
def originAbove (cfg : PollingConfig) (floor : Nat) (published : List ConfigSpecForCompany) :
    Handler OriginCmd (fun _ => OriginReply) Unit where
  step _ c reply _ := ∃ o : Origins, floor ≤ o.floor cfg ∧
    (∀ blob ∈ o.blob, blob.config ∈ published) ∧ Answers o c reply ∧
    ∀ new ∈ givenOut c reply, new ∈ published

theorem Origins.floor_of_url {o : Origins} {url : String}
    (hurl : cfg.builder.blobUrl cfg.rc = some url) :
    o.floor cfg = (o.blob.map Blob.lcut).getD 0 := by
  simp [Origins.floor, hurl]

theorem wp_download :
    Wp (originAbove cfg floor published) (cfg.builder.download cfg.rc sinceTime)
      (fun outcome _ => Brings published floor sinceTime (outcome.settle cfg.rc sinceTime))
      (fun _ => True) () := by
  unfold DcsRequestBuilder.download DcsRequestBuilder.buildRequest
    DcsRequestBuilder.buildBlobBodyRequest
  cases hurl : cfg.builder.blobUrl cfg.rc with
  | none =>
    refine Wp.cmdBind trivial fun reply _ ⟨o, hfloor, _, hanswer, hgiven⟩ => Wp.pure trivial ?_
    have hcdn : floor ≤ o.cdnLcut := by simpa [Origins.floor, hurl] using hfloor
    exact brings_cdn cfg.useLcut hanswer (.inl hcdn) hgiven
  | some url =>
    refine Wp.cmdBind trivial fun reply _ ⟨o, hfloor, hblobs, hanswer, _⟩ => ?_
    rw [Origins.floor_of_url hurl] at hfloor
    cases hanswer with
    | connectError => exact Wp.pure trivial (brings_handleError none)
    | otherError => exact Wp.pure trivial (brings_handleError none)
    | refused _ response whole hstatus hfound =>
      have hstay : shouldFallbackToCdn response.status = false := decide_eq_false hfound
      simp only [hstay, Bool.false_eq_true, if_false]
      refine Wp.pure trivial ?_
      rw [RequestBuilderOutcome.settle, settle_refused _ _ whole hstatus]
      exact brings_handleError _
    | noBlob url acceptEncoding response whole hstatus hblob =>
      have hleave : shouldFallbackToCdn response.status = true := decide_eq_true hstatus
      simp only [hleave, if_true]
      -- There was no blob when the poll was sent, so nothing is asked of the CDN.
      have hzero : floor = 0 := by simpa [hblob] using hfloor
      refine Wp.cmdBind trivial fun reply _ ⟨o', _, _, hcdn, hgiven⟩ => Wp.pure trivial ?_
      exact brings_cdn cfg.useLcut hcdn (.inr hzero) hgiven
    | blob url acceptEncoding blob whole hfound =>
      have hstay : shouldFallbackToCdn blob.response.status = false := rfl
      simp only [hstay, Bool.false_eq_true, if_false]
      refine Wp.pure trivial ?_
      rw [RequestBuilderOutcome.settle]
      cases whole with
      | false =>
        rw [settle_broken _ _ rfl]
        exact brings_handleError _
      | true =>
        rw [blob.settle_eq cfg.useLcut sinceTime]
        refine brings_config (hblobs blob hfound) (.inr ?_)
        simpa [hfound] using hfloor

/-- A blob whose metadata makes a download unnecessary is not newer. -/
theorem skips_answer {o : Origins} {url : String} {reply : OriginReply}
    (hanswer : Answers o (.headBlob url) reply)
    (hskips : DcsRequestBuilder.skips sinceTime reply = true) :
    0 < sinceTime ∧ ∃ blob, o.blob = some blob ∧ blob.lcut ≤ sinceTime := by
  cases hanswer with
  | connectError => simp [DcsRequestBuilder.skips] at hskips
  | otherError => simp [DcsRequestBuilder.skips] at hskips
  | refused _ response whole hstatus hfound =>
    simp [DcsRequestBuilder.skips, isSuccess_of_le hstatus] at hskips
  | noMetadata url response whole hstatus =>
    simp [DcsRequestBuilder.skips, hstatus, HttpDataProvider.isSuccess] at hskips
  | metadata url blob hfound =>
    have hmetadata : parseBlobMetadataLcut blob.response.headers = some blob.lcut := blob.metadata
    simp only [DcsRequestBuilder.skips, hmetadata, Option.any_some, shouldSkipBlobDownload,
      Bool.and_eq_true, decide_eq_true_eq] at hskips
    exact ⟨hskips.2.1, blob, hfound, hskips.2.2⟩

theorem wp_makeRequest :
    Wp (originAbove cfg floor published) (cfg.builder.makeRequest cfg.rc sinceTime)
      (fun outcome _ => Brings published floor sinceTime (outcome.settle cfg.rc sinceTime))
      (fun _ => True) () := by
  unfold DcsRequestBuilder.makeRequest
  split
  · refine Wp.seq (P := fun skip _ => skip = true → floor ≤ sinceTime) ?_ fun skip _ hskip => ?_
    · unfold DcsRequestBuilder.shouldSkipDownloadUsingMetadata
        DcsRequestBuilder.buildBlobMetadataRequest
      split
      · exact Wp.pure trivial (by simp)
      · cases hurl : cfg.builder.blobUrl cfg.rc with
        | none => exact Wp.pure trivial (by simp)
        | some url =>
          refine Wp.cmdBind trivial fun reply _ ⟨o, hfloor, _, hanswer, _⟩ =>
            Wp.pure trivial fun hskips => ?_
          obtain ⟨-, blob, hfound, hle⟩ := skips_answer hanswer hskips
          rw [Origins.floor_of_url hurl, hfound] at hfloor
          exact hfloor.trans hle
    · cases skip with
      | true => exact Wp.pure trivial (brings_noData (hskip rfl))
      | false => exact wp_download
  · exact wp_download

theorem wp_getWith {makeRequest : OriginProg RequestBuilderOutcome}
    (h : Wp (originAbove cfg floor published) makeRequest
      (fun outcome _ => Brings published floor sinceTime (outcome.settle cfg.rc sinceTime))
      (fun _ => True) ()) :
    Wp (originAbove cfg floor published) (getWith cfg.rc sinceTime makeRequest)
      (fun dp _ => Brings published floor sinceTime dp) (fun _ => True) () := by
  unfold getWith
  refine Wp.seq h fun outcome _ hbrings => ?_
  split
  · exact Wp.seq h fun outcome _ hbrings => Wp.pure trivial hbrings
  · exact Wp.pure trivial hbrings

/-- What a poll brings. -/
theorem wp_get : Wp (originAbove cfg floor published) (cfg.get sinceTime)
    (fun dp _ => Brings published floor sinceTime dp) (fun _ => True) () := by
  unfold PollingConfig.get
  split
  · exact wp_getWith wp_makeRequest
  · exact wp_getWith wp_download

end ForwardProxy.Servers
