/-
ForwardProxy.Datastore.IdListFileStoreTheorems — who gets an id-list file,
and how long the cached body is.

A body is cached after a success response for its file and under its file
id alone. So what is returned for a file is a body that upstream has given
out for that file, to some key. The key need not be that of the request:
a key that upstream refuses gets what another one has fetched.

The observer replaces a cached body by whatever is delivered. It goes back
exactly if a shorter body is delivered after a longer one.
-/
import ForwardProxy.Effect.Interleave
import ForwardProxy.Datastore.IdListFileStore

namespace ForwardProxy.Datastore

open Effect BackgroundDataProvider HttpDataProvider

/-! ## What a download does -/

/-- What the last command has brought. -/
inductive FilePhase where
  | start
  | read (fileId : String) (body : Option (List UInt8))
  | answered (rc : AuthorizedRequestContext) (body : List UInt8)
  deriving DecidableEq

/-- A body is delivered right after the response that has it, and returned
right after it is read from the cache. -/
def fileProtocol : Protocol FileCmd FileCmd.Reply FilePhase where
  allows
    | φ, .update rc response =>
      response.resultType = .dataAvailable ∧ φ = .answered rc response.body.data ∨
        response.resultType = .clientError
    | φ, .returned rc body =>
      ∀ b, body = some b → ∃ fileId, rc.fileId = some fileId ∧ φ = .read fileId (some b)
    | _, _ => True
  next
    | _, .storeGet fileId, body => .read fileId body
    | _, .upstream rc, attempts =>
      match attempts with
      | some (first, second) =>
        match (answered first second).succeeded with
        | some payload => .answered rc payload.data
        | none => .start
      | none => .start
    | φ, .mayFetch _, _ => φ
    | _, _, _ => .start

/-- Without a backup a failure is at most reported. -/
theorem processError_follows (rc : AuthorizedRequestContext) (status : Option Nat) (φ : FilePhase) :
    (processResult idListFileRequestBuilder rc 0 false (handleError status)).Follows fileProtocol
      (fun _ => True) φ := by
  unfold processResult notifyResult
  cases hresult : (handleError status).result with
  | clientError => exact ⟨.inr rfl, fun _ => trivial⟩
  | dataAvailable | noDataAvailable | unauthorized | error => exact .pure trivial

theorem processRequest_follows (rc : AuthorizedRequestContext) (first second : Attempt)
    {φ : FilePhase}
    (hφ : ∀ payload, (answered first second).succeeded = some payload →
      φ = .answered rc payload.data) :
    (processRequest idListFileRequestBuilder rc 0 false first second).Follows fileProtocol
      (fun _ => True) φ := by
  unfold processRequest
  rw [get_eq]
  cases hattempt : answered first second with
  | connectError => exact processError_follows rc none φ
  | otherError => exact processError_follows rc none φ
  | response status sinceTime payload =>
    rw [hattempt] at hφ
    change ((handleResponse idListFileRequestBuilder rc 0 status sinceTime payload) >>=
      processResult idListFileRequestBuilder rc 0 false).Follows _ _ _
    unfold handleResponse
    by_cases hempty : status = 204
    · rw [if_pos hempty]
      exact .pure trivial
    rw [if_neg hempty]
    cases payload with
    | none => exact processError_follows rc (some status) φ
    | some payload =>
      by_cases hsuccess : isSuccess status = true
      · have hanswered := hφ payload (by simp [Attempt.succeeded, hempty, hsuccess])
        simp only [hsuccess, Bool.not_true, Bool.false_eq_true, if_false]
        change (processResult idListFileRequestBuilder rc 0 false
          ⟨.dataAvailable, some payload, parseSinceTime rc 0 sinceTime⟩).Follows _ _ _
        unfold processResult notifyResult
        cases !rc.useLcut || decide (0 ≠ parseSinceTime rc 0 sinceTime) with
        | true => exact ⟨.inl ⟨rfl, hanswered⟩, fun _ => trivial⟩
        | false => exact .pure trivial
      · simp only [hsuccess, Bool.not_false, if_true]
        exact processError_follows rc (some status) φ

theorem foregroundFetch_follows (rc : AuthorizedRequestContext) (φ : FilePhase) :
    (foregroundFetch rc 0 false).Follows fileProtocol (fun _ => True) φ := by
  refine ⟨trivial, ?_⟩
  intro (may : Bool)
  refine .ite (.pure trivial) ⟨trivial, ?_⟩
  intro (attempts : Option (Attempt × Attempt))
  cases attempts with
  | none => exact .pure trivial
  | some attempts =>
    obtain ⟨first, second⟩ := attempts
    change (processRequest idListFileRequestBuilder rc 0 false first second >>= fun _ =>
      Prog.pure ()).Follows _ _ _
    refine .bind (processRequest_follows rc first second ?_) fun _ _ _ => .pure trivial
    intro payload hpayload
    change (match (answered first second).succeeded with
      | some payload => FilePhase.answered rc payload.data
      | none => FilePhase.start) = _
    rw [hpayload]

open IdListFileStore in
theorem ensureFreshEnough_follows (rc : FileRequest) (φ : FilePhase) :
    (ensureFreshEnough rc).Follows fileProtocol (fun _ => True) φ := by
  have hhit : ∀ φ, (getCachedHit rc).Follows fileProtocol (fun _ => True) φ := by
    intro φ
    unfold getCachedHit getStoredBody
    cases rc.fileId with
    | none => exact .pure trivial
    | some cacheKey => exact ⟨trivial, fun _ => trivial⟩
  refine .bind (hhit φ) ?_
  intro hit φ' _
  refine .ite (.pure trivial) (.ite (.pure trivial) ?_)
  refine .bind (foregroundFetch_follows _ φ') ?_
  intro _ φ'' _
  exact .bind (hhit φ'') fun _ _ _ => .pure trivial

open IdListFileStore in
/-- The body of the first read is returned if it satisfies the request, and
that of the second one in any case. -/
theorem getDownloadIdListFile_follows (rc : FileRequest) (φ : FilePhase) :
    (getDownloadIdListFile rc).Follows fileProtocol (fun _ => True) φ := by
  unfold getDownloadIdListFile getOrFetch
  cases hfile : rc.fileId with
  | none =>
    have hbody : getStoredBody rc = .pure none := by simp [getStoredBody, hfile]
    have hfetch : fetchBody rc = .pure none := by simp [fetchBody, hfile]
    rw [hbody, hfetch]
    exact ⟨fun b hb => by simp at hb, fun _ => trivial⟩
  | some cacheKey =>
    have hbody : getStoredBody rc = cacheGet cacheKey := by simp [getStoredBody, hfile]
    have hfetch : fetchBody rc = (foregroundFetch rc.toAuthorizedRequestContext 0 false).bind
        fun _ => cacheGet cacheKey := by
      rw [fetchBody, hbody, if_neg (by simp [hfile])]
      rfl
    have hreturn : ∀ body : Option (List UInt8),
        (returned rc body).Follows fileProtocol (fun _ => True) (.read cacheKey body) := by
      intro body
      refine .cmd ?_ fun _ => trivial
      rintro b rfl
      exact ⟨cacheKey, hfile, rfl⟩
    rw [hbody, hfetch]
    refine ⟨trivial, ?_⟩
    intro (previousBody : Option (List UInt8))
    change Prog.Follows _ _ (Prog.bind (if _ then Prog.pure previousBody else _) _) _
    split
    · exact hreturn previousBody
    · rw [Prog.bind_assoc]
      refine .bind (foregroundFetch_follows _ _) ?_
      intro _ φ' _
      exact ⟨trivial, hreturn⟩

/-! ## Where a body comes from -/

/-- Upstream has given out the body for the file, to some key. -/
def FileServer.GivenOut (s : FileServer) (fileId : String) (body : List UInt8) : Prop :=
  ∃ acceptance ∈ s.accepted, acceptance.fileId = some fileId ∧ acceptance.body = body

def FilePhase.Sound (s : FileServer) : FilePhase → Prop
  | .start => True
  | .read fileId body => ∀ b, body = some b → s.GivenOut fileId b
  | .answered rc body => ∀ fileId, rc.fileId = some fileId → s.GivenOut fileId body

/-- What is cached, on its way or returned has been given out. -/
structure GivenOutOnly (φ : Nat → FilePhase) (s : FileServer) (log : List (Nat × FileCmd)) :
    Prop where
  cached : ∀ fileId body, s.files.store fileId = some body → s.GivenOut fileId body
  phases : ∀ i, (φ i).Sound s
  returned : ∀ i rc body, (i, .returned rc (some body)) ∈ log →
    ∃ fileId, rc.fileId = some fileId ∧ s.GivenOut fileId body

section Step

variable {s s' : FileServer}

theorem FilePhase.Sound.mono {φ : FilePhase} (h : φ.Sound s)
    (hgiven : ∀ fileId body, s.GivenOut fileId body → s'.GivenOut fileId body) : φ.Sound s' := by
  cases φ with
  | start => trivial
  | read fileId body => exact fun b hb => hgiven fileId b (h b hb)
  | answered rc body => exact fun fileId hfile => hgiven fileId body (h fileId hfile)

theorem givenOut_answer {rc : AuthorizedRequestContext} {attempt : Attempt} {fileId : String}
    {body : List UInt8} (h : s.GivenOut fileId body) :
    (s.answer rc attempt).GivenOut fileId body := by
  obtain ⟨acceptance, hmem, hrest⟩ := h
  unfold FileServer.answer
  split
  · exact ⟨acceptance, List.mem_cons_of_mem _ hmem, hrest⟩
  · exact ⟨acceptance, hmem, hrest⟩

theorem files_answer (rc : AuthorizedRequestContext) (attempt : Attempt) :
    (s.answer rc attempt).files = s.files := by
  unfold FileServer.answer
  split
  · rfl
  · rfl

/-- Nothing that was given out is forgotten. -/
theorem givenOut_step {c : FileCmd} {r : c.Reply} (hstep : fileServer.step s c r s') :
    ∀ fileId body, s.GivenOut fileId body → s'.GivenOut fileId body := by
  intro fileId body h
  cases c with
  | storeGet _ =>
    obtain ⟨_, rfl⟩ : _ ∧ s' = s := hstep
    exact h
  | mayFetch _ =>
    obtain rfl : s' = s := hstep
    exact h
  | upstream rc =>
    cases r with
    | none =>
      rcases (hstep : s' = s ∨ ∃ attempt, s' = s.answer rc attempt) with rfl | ⟨attempt, rfl⟩
      · exact h
      · exact givenOut_answer h
    | some attempts =>
      obtain rfl : s' = s.answer rc _ := hstep
      exact givenOut_answer h
  | update rc response =>
    obtain rfl : s' = { s with files := s.files.update rc response } := hstep
    exact h
  | returned rc body =>
    obtain rfl : s' = s := hstep
    exact h
  | evict _ =>
    obtain rfl : s' = { s with files := s.files.invalidate _ } := hstep
    exact h

/-- A body is cached by a delivery, and only after the response. -/
theorem cached_step {φ : FilePhase} {c : FileCmd} {r : c.Reply}
    (hcached : ∀ fileId body, s.files.store fileId = some body → s.GivenOut fileId body)
    (hφ : φ.Sound s) (hallows : fileProtocol.allows φ c) (hstep : fileServer.step s c r s') :
    ∀ fileId body, s'.files.store fileId = some body → s'.GivenOut fileId body := by
  intro fileId body hbody
  refine givenOut_step hstep fileId body ?_
  cases c with
  | storeGet _ =>
    obtain ⟨_, rfl⟩ : _ ∧ s' = s := hstep
    exact hcached fileId body hbody
  | mayFetch _ =>
    obtain rfl : s' = s := hstep
    exact hcached fileId body hbody
  | upstream rc =>
    have hfiles : s'.files = s.files := by
      cases r with
      | none =>
        rcases (hstep : s' = s ∨ ∃ attempt, s' = s.answer rc attempt) with rfl | ⟨attempt, rfl⟩
        · rfl
        · exact files_answer rc attempt
      | some attempts =>
        obtain rfl : s' = s.answer rc _ := hstep
        exact files_answer rc _
    rw [hfiles] at hbody
    exact hcached fileId body hbody
  | update rc response =>
    obtain rfl : s' = { s with files := s.files.update rc response } := hstep
    simp only [IdListFileStore.update] at hbody
    cases hfile : rc.fileId with
    | none =>
      rw [hfile] at hbody
      exact hcached fileId body hbody
    | some cacheKey =>
      rw [hfile] at hbody
      rcases hallows with ⟨hdata, rfl⟩ | hclient
      · simp only [hdata, IdListFileStore.insert] at hbody
        by_cases hkey : fileId = cacheKey
        · subst hkey
          rw [Function.update_self] at hbody
          obtain rfl := Option.some.inj hbody
          exact hφ fileId hfile
        · rw [Function.update_of_ne hkey] at hbody
          exact hcached fileId body hbody
      · simp only [hclient] at hbody
        exact hcached fileId body hbody
  | returned rc body =>
    obtain rfl : s' = s := hstep
    exact hcached fileId _ hbody
  | evict evicted =>
    obtain rfl : s' = { s with files := s.files.invalidate evicted } := hstep
    simp only [IdListFileStore.invalidate] at hbody
    by_cases hkey : fileId = evicted
    · subst hkey
      simp at hbody
    · rw [Function.update_of_ne hkey] at hbody
      exact hcached fileId body hbody

theorem sound_next {φ : FilePhase} {c : FileCmd} {r : c.Reply}
    (hcached : ∀ fileId body, s.files.store fileId = some body → s.GivenOut fileId body)
    (hφ : φ.Sound s) (hstep : fileServer.step s c r s') : (fileProtocol.next φ c r).Sound s' := by
  cases c with
  | storeGet fileId =>
    obtain ⟨rfl, rfl⟩ : r = s.files.store fileId ∧ s' = s := hstep
    exact fun b hb => hcached fileId b hb
  | mayFetch _ =>
    obtain rfl : s' = s := hstep
    exact hφ
  | upstream rc =>
    cases r with
    | none => trivial
    | some attempts =>
      obtain ⟨first, second⟩ := attempts
      obtain rfl : s' = s.answer rc (answered first second) := hstep
      change FilePhase.Sound _ (match (answered first second).succeeded with
        | some payload => FilePhase.answered rc payload.data
        | none => FilePhase.start)
      cases hsucceeded : (answered first second).succeeded with
      | none => trivial
      | some payload =>
        intro fileId hfile
        refine ⟨⟨rc.sdkKey, rc.fileId, payload.data⟩, ?_, hfile, rfl⟩
        simp [FileServer.answer, hsucceeded]
  | update _ _ => trivial
  | returned _ _ => trivial
  | evict _ => trivial

theorem givenOutOnly_step {φ : Nat → FilePhase} {log : List (Nat × FileCmd)} {i : Nat}
    {c : FileCmd} {r : c.Reply} (h : GivenOutOnly φ s log) (hallows : fileProtocol.allows (φ i) c)
    (hstep : fileServer.step s c r s') :
    GivenOutOnly (Function.update φ i (fileProtocol.next (φ i) c r)) s' ((i, c) :: log) where
  cached := cached_step h.cached (h.phases i) hallows hstep
  phases := by
    intro j
    by_cases hj : j = i
    · subst hj
      rw [Function.update_self]
      exact sound_next h.cached (h.phases j) hstep
    · rw [Function.update_of_ne hj]
      exact (h.phases j).mono (givenOut_step hstep)
  returned := by
    intro j rc body hmem
    rcases List.mem_cons.mp hmem with hnew | hold
    · obtain ⟨rfl, rfl⟩ := Prod.mk.inj hnew
      obtain ⟨fileId, hfile, hread⟩ := hallows body rfl
      have hsound := h.phases j
      rw [hread] at hsound
      exact ⟨fileId, hfile, givenOut_step hstep fileId body (hsound body rfl)⟩
    · obtain ⟨fileId, hfile, hgiven⟩ := h.returned j rc body hold
      exact ⟨fileId, hfile, givenOut_step hstep fileId body hgiven⟩

end Step

/-! ## Runs -/

inductive FileParty where
  | download (rc : FileRequest)
  /-- A file of a new manifest. -/
  | refresh (rc : FileRequest)
  | eviction (fileId : String)

def FileParty.prog : FileParty → FileProg Unit
  | .download rc => getDownloadIdListFile rc
  | .refresh rc => IdListFileStore.ensureFreshEnough rc >>= fun _ => .pure ()
  | .eviction fileId => Prog.cmd (FileCmd.evict fileId)

theorem FileParty.prog_follows (party : FileParty) :
    party.prog.Follows fileProtocol (fun _ => True) .start := by
  cases party with
  | download rc => exact getDownloadIdListFile_follows rc .start
  | refresh rc => exact .bind (ensureFreshEnough_follows rc .start) fun _ _ _ => .pure trivial
  | eviction fileId => exact ⟨trivial, fun _ => trivial⟩

abbrev FilePool : Type := Pool FileCmd FileCmd.Reply Empty FileServer Nat fun _ => Unit

def FilePool.start (parties : Nat → FileParty) : FilePool :=
  ⟨FileServer.new, fun i => (parties i).prog, []⟩

/-- **A body that is returned for a file has been given out for it** by
upstream, whoever the requests come from and however they interleave. -/
theorem returned_given_out {parties : Nat → FileParty} {pool : FilePool}
    (hrun : Relation.ReflTransGen (Pool.Step fileServer fun _ _ _ => true)
      (FilePool.start parties) pool) {i : Nat} {rc : FileRequest} {body : List UInt8}
    (hreturned : (i, .returned rc (some body)) ∈ pool.log) :
    ∃ fileId, rc.fileId = some fileId ∧ pool.state.GivenOut fileId body := by
  have hstart : GivenOutOnly (fun _ => .start) FileServer.new [] :=
    ⟨by simp [FileServer.new, IdListFileStore.new], fun _ => trivial, by simp⟩
  obtain ⟨φ, _, hgiven⟩ := Pool.invariant (I := GivenOutOnly) (fun i => (parties i).prog_follows)
    hstart (fun φ s log i c r s' h hallows _ hstep => givenOutOnly_step h hallows hstep) hrun
  exact hgiven.returned i rc body hreturned

def fileRequest (sdkKey : String) (idListSize : Option Nat) : FileRequest where
  toAuthorizedRequestContext :=
    { AuthorizedRequestContext.new sdkKey .v1DownloadIdListFile [] with
      fileId := some "list"
      idListSize := idListSize }
  rangeStart := none

/-- One key, and then another one that asks for more than is cached. -/
def twoKeys (i : Nat) : FileParty :=
  .download (if i = 0 then fileRequest "first-key" none else fileRequest "second-key" (some 4))

/-- Upstream gives out a file to the first key and refuses the second. -/
def twoAnswers403 : List Attempt :=
  [.response 200 none (some ⟨false, .plainText, [0x2b, 0x61]⟩), .response 403 none none]

/-- The last command, and the keys upstream has accepted. -/
def afterDownloads (schedule : List Nat) : Option (Option (Nat × FileCmd) × List String) :=
  (fileServerRunner.turns (fun _ _ _ => true) schedule (FilePool.start twoKeys)
    twoAnswers403).map fun t =>
      (t.1.log.head?, t.1.state.accepted.map fun acceptance => acceptance.sdkKey)

theorem exists_of_downloads {schedule : List Nat} {c : Nat × FileCmd} {keys : List String}
    (h : afterDownloads schedule = some (some c, keys)) :
    ∃ pool : FilePool,
      Relation.ReflTransGen (Pool.Step fileServer fun _ _ _ => true) (FilePool.start twoKeys)
        pool ∧
      c ∈ pool.log ∧ (pool.state.accepted.map fun acceptance => acceptance.sdkKey) = keys := by
  obtain ⟨⟨pool, w⟩, hturns, hpool⟩ := Option.map_eq_some_iff.mp h
  obtain ⟨hhead, hkeys⟩ := Prod.mk.inj hpool
  exact ⟨pool, fileServerRunner.turns_sound hturns, List.mem_of_mem_head? hhead, hkeys⟩

theorem returned_given_out_first :
    ∃ pool : FilePool,
      Relation.ReflTransGen (Pool.Step fileServer fun _ _ _ => true) (FilePool.start twoKeys)
        pool ∧
      ∃ fileId, (fileRequest "first-key" none).fileId = some fileId ∧
        pool.state.GivenOut fileId [0x2b, 0x61] := by
  have hturns : afterDownloads [0, 0, 0, 0, 0, 0] =
      some (some (0, .returned (fileRequest "first-key" none) (some [0x2b, 0x61])),
        ["first-key"]) := by decide +kernel
  obtain ⟨pool, hrun, hreturned, _⟩ := exists_of_downloads hturns
  exact ⟨pool, hrun, returned_given_out hrun hreturned⟩

/-- The second key is refused and gets the body of the first. -/
theorem returned_to_refused_key :
    ¬ ∀ (parties : Nat → FileParty) (pool : FilePool),
      Relation.ReflTransGen (Pool.Step fileServer fun _ _ _ => true) (FilePool.start parties)
        pool →
      ∀ i rc body, (i, .returned rc (some body)) ∈ pool.log →
        ∃ acceptance ∈ pool.state.accepted,
          acceptance.sdkKey = rc.sdkKey ∧ acceptance.fileId = rc.fileId := by
  intro hall
  have hturns : afterDownloads [0, 0, 0, 0, 0, 0, 1, 1, 1, 1, 1] =
      some (some (1, .returned (fileRequest "second-key" (some 4)) (some [0x2b, 0x61])),
        ["first-key"]) := by decide +kernel
  obtain ⟨pool, hrun, hreturned, hkeys⟩ := exists_of_downloads hturns
  obtain ⟨acceptance, hmem, hkey, _⟩ := hall twoKeys pool hrun 1 _ _ hreturned
  have hfirst : acceptance.sdkKey ∈ ["first-key"] := by
    rw [← hkeys]
    exact List.mem_map_of_mem hmem
  rw [hkey] at hfirst
  simp [fileRequest, AuthorizedRequestContext.new] at hfirst

/-! ## The length of the cached body -/

/-- What reaches the cache. -/
inductive FileEvent where
  | delivered (rc : AuthorizedRequestContext) (response : ResponseContext)
  | evicted (fileId : String)
  deriving DecidableEq, Repr

namespace FileEvent

/-- The body that the event puts under the file id. -/
def bodyFor (fileId : String) : FileEvent → Option (List UInt8)
  | .delivered rc response =>
    if rc.fileId = some fileId ∧
        (response.resultType = .dataAvailable ∨ response.resultType = .error) then
      some response.body.data
    else none
  | .evicted _ => none

/-- The entry is evicted, or removed because the key is refused. -/
def removes (fileId : String) : FileEvent → Bool
  | .delivered rc response => rc.fileId = some fileId ∧ response.resultType = .unauthorized
  | .evicted other => other = fileId

end FileEvent

def IdListFileStore.on (s : IdListFileStore) : FileEvent → IdListFileStore
  | .delivered rc response => s.update rc response
  | .evicted fileId => s.invalidate fileId

/-- What one event makes of an entry. -/
theorem store_on (s : IdListFileStore) (event : FileEvent) (fileId : String) :
    (∃ body, event.bodyFor fileId = some body ∧ event.removes fileId = false ∧
        (s.on event).store fileId = some body) ∨
      event.bodyFor fileId = none ∧ event.removes fileId = true ∧
        (s.on event).store fileId = none ∨
      event.bodyFor fileId = none ∧ event.removes fileId = false ∧
        (s.on event).store fileId = s.store fileId := by
  cases event with
  | evicted other =>
    right
    by_cases hkey : other = fileId
    · subst hkey
      exact .inl ⟨rfl, by simp [FileEvent.removes], Function.update_self ..⟩
    · exact .inr ⟨rfl, by simp [FileEvent.removes, hkey], Function.update_of_ne (Ne.symm hkey) ..⟩
  | delivered rc response =>
    simp only [FileEvent.bodyFor, FileEvent.removes, IdListFileStore.on, IdListFileStore.update]
    cases hfile : rc.fileId with
    | none => exact .inr (.inr ⟨by simp, by simp, rfl⟩)
    | some cacheKey =>
      by_cases hkey : cacheKey = fileId
      · subst hkey
        cases hresult : response.resultType with
        | dataAvailable | error =>
          exact .inl ⟨response.body.data, by simp, by simp, Function.update_self ..⟩
        | unauthorized => exact .inr (.inl ⟨by simp, by simp, Function.update_self ..⟩)
        | noDataAvailable | clientError => exact .inr (.inr ⟨by simp, by simp, rfl⟩)
      · have hother : ∀ stored, Function.update s.store cacheKey stored fileId = s.store fileId :=
          fun stored => Function.update_of_ne (Ne.symm hkey) ..
        cases response.resultType with
        | dataAvailable | error | unauthorized =>
          exact .inr (.inr ⟨by simp [hkey], by simp [hkey], hother _⟩)
        | noDataAvailable | clientError =>
          exact .inr (.inr ⟨by simp [hkey], by simp [hkey], rfl⟩)

/-- Each body that is delivered is at least as long as the one before it,
`last`, unless the entry has been removed in between. -/
def deliveredInOrder (fileId : String) : Option Nat → List FileEvent → Prop
  | _, [] => True
  | last, event :: events =>
    match event.bodyFor fileId with
    | some body =>
      (∀ n, last = some n → n ≤ body.length) ∧
        deliveredInOrder fileId (some body.length) events
    | none => deliveredInOrder fileId (if event.removes fileId then none else last) events

/-- The length of the cached body. -/
def IdListFileStore.cachedLen (s : IdListFileStore) (fileId : String) : Option Nat :=
  (s.store fileId).map List.length

theorem deliveredInOrder_cons {fileId : String} {s : IdListFileStore} {event : FileEvent}
    {events : List FileEvent} :
    deliveredInOrder fileId (s.cachedLen fileId) (event :: events) ↔
      (∀ body, event.bodyFor fileId = some body →
        ∀ n, s.cachedLen fileId = some n → n ≤ body.length) ∧
      deliveredInOrder fileId ((s.on event).cachedLen fileId) events := by
  rw [deliveredInOrder]
  rcases store_on s event fileId with ⟨body, hbody, _, hstore⟩ | ⟨hbody, hremoves, hstore⟩ |
    ⟨hbody, hremoves, hstore⟩
  · simp [hbody, IdListFileStore.cachedLen, hstore]
  · simp [hbody, hremoves, IdListFileStore.cachedLen, hstore]
  · simp [hbody, hremoves, IdListFileStore.cachedLen, hstore]

/-- With a size hint a longer body satisfies what a shorter one does. -/
theorem cachedBodySatisfiesRequest_mono {rc : FileRequest} {size : Nat}
    (hsize : rc.idListSize = some size) {body body' : List UInt8}
    (hle : body.length ≤ body'.length) (h : cachedBodySatisfiesRequest body rc = true) :
    cachedBodySatisfiesRequest body' rc = true := by
  unfold cachedBodySatisfiesRequest at h ⊢
  simp only [hsize] at h ⊢
  cases hstart : rc.rangeStart with
  | none =>
    simp only [hstart, Option.all_some, decide_eq_true_eq] at h ⊢
    omega
  | some start =>
    simp only [hstart, reduceCtorEq, if_false, Option.all_some, Option.some.injEq,
      Bool.and_eq_true, Bool.or_eq_true, decide_eq_true_eq] at h ⊢
    omega

def accepts (s : IdListFileStore) (fileId : String) (rc : FileRequest) : Bool :=
  (s.store fileId).any fun body => cachedBodySatisfiesRequest body rc

/-- In every period without a removal the cached body gets no shorter, and
a request with a size hint that it has satisfied stays satisfied. -/
structure NeverRegresses (fileId : String) (s : IdListFileStore) (events : List FileEvent) :
    Prop where
  longer : ∀ before period after, events = before ++ period ++ after →
    (∀ event ∈ period, event.removes fileId = false) →
    ∀ n, (before.foldl IdListFileStore.on s).cachedLen fileId = some n →
      ∃ n', ((before ++ period).foldl IdListFileStore.on s).cachedLen fileId = some n' ∧ n ≤ n'
  accepted : ∀ before period after, events = before ++ period ++ after →
    (∀ event ∈ period, event.removes fileId = false) →
    ∀ rc size, rc.idListSize = some size →
      accepts (before.foldl IdListFileStore.on s) fileId rc = true →
      accepts ((before ++ period).foldl IdListFileStore.on s) fileId rc = true

theorem deliveredInOrder_append {fileId : String} {after : List FileEvent} :
    ∀ (before : List FileEvent) (s : IdListFileStore),
      deliveredInOrder fileId (s.cachedLen fileId) (before ++ after) →
      deliveredInOrder fileId ((before.foldl IdListFileStore.on s).cachedLen fileId) after
  | [], _, h => h
  | event :: before, s, h => by
      have htail := (deliveredInOrder_cons.mp h).2
      exact deliveredInOrder_append before (s.on event) htail

/-- Within a period the cached length only grows. -/
theorem cachedLen_period {fileId : String} {after : List FileEvent} :
    ∀ {period : List FileEvent} {s : IdListFileStore},
      deliveredInOrder fileId (s.cachedLen fileId) (period ++ after) →
      (∀ event ∈ period, event.removes fileId = false) →
      ∀ n, s.cachedLen fileId = some n →
        ∃ n', (period.foldl IdListFileStore.on s).cachedLen fileId = some n' ∧ n ≤ n'
  | [], _, _, _, n, hn => ⟨n, hn, le_rfl⟩
  | event :: period, s, horder, hkept, n, hn => by
      obtain ⟨hhead, htail⟩ := deliveredInOrder_cons.mp horder
      have hrest := cachedLen_period htail fun e he => hkept e (List.mem_cons_of_mem _ he)
      have hnext : ∃ m, (s.on event).cachedLen fileId = some m ∧ n ≤ m := by
        rcases store_on s event fileId with ⟨body, hbody, _, hstore⟩ | ⟨_, hremoves, _⟩ |
          ⟨_, _, hstore⟩
        · refine ⟨body.length, ?_, hhead body hbody n hn⟩
          simp [IdListFileStore.cachedLen, hstore]
        · rw [hkept event List.mem_cons_self] at hremoves
          simp at hremoves
        · refine ⟨n, ?_, le_rfl⟩
          rw [IdListFileStore.cachedLen, hstore]
          exact hn
      obtain ⟨m, hm, hnm⟩ := hnext
      obtain ⟨n', hn', hmn'⟩ := hrest m hm
      exact ⟨n', hn', hnm.trans hmn'⟩

theorem accepts_of_longer {fileId : String} {s s' : IdListFileStore}
    (h : ∀ n, s.cachedLen fileId = some n → ∃ n', s'.cachedLen fileId = some n' ∧ n ≤ n')
    {rc : FileRequest} {size : Nat} (hsize : rc.idListSize = some size)
    (haccepts : accepts s fileId rc = true) : accepts s' fileId rc = true := by
  obtain ⟨body, hbody, hsatisfies⟩ := (Option.any_eq_true _ _).mp haccepts
  obtain ⟨n', hn', hle⟩ := h body.length (by simp [IdListFileStore.cachedLen, hbody])
  obtain ⟨body', hbody', rfl⟩ := Option.map_eq_some_iff.mp hn'
  rw [accepts, hbody', Option.any_some]
  exact cachedBodySatisfiesRequest_mono hsize hle hsatisfies

/-- **The cache of a file regresses exactly if** a shorter body is delivered
after a longer one. -/
theorem never_regresses_iff (fileId : String) (s : IdListFileStore) (events : List FileEvent) :
    NeverRegresses fileId s events ↔
      deliveredInOrder fileId (s.cachedLen fileId) events := by
  constructor
  · intro h
    induction events generalizing s with
    | nil => trivial
    | cons event events ih =>
      refine deliveredInOrder_cons.mpr ⟨?_, ih (s.on event) ?_⟩
      · -- the period is the delivery alone
        intro body hbody n hn
        rcases store_on s event fileId with ⟨body', hbody', hremoves, hstore⟩ | ⟨hnone, _⟩ |
          ⟨hnone, _⟩
        · obtain ⟨n', hn', hle⟩ := h.longer [] [event] events rfl (by simpa using hremoves) n hn
          obtain rfl : body' = body := Option.some.inj (hbody'.symm.trans hbody)
          obtain rfl : body'.length = n' := by
            simpa [IdListFileStore.cachedLen, hstore] using hn'
          exact hle
        · rw [hnone] at hbody
          simp at hbody
        · rw [hnone] at hbody
          simp at hbody
      · constructor
        · intro before period after hevents
          exact h.longer (event :: before) period after (by rw [hevents]; rfl)
        · intro before period after hevents
          exact h.accepted (event :: before) period after (by rw [hevents]; rfl)
  · intro h
    have hlonger : ∀ before period after, events = before ++ period ++ after →
        (∀ event ∈ period, event.removes fileId = false) →
        ∀ n, (before.foldl IdListFileStore.on s).cachedLen fileId = some n →
          ∃ n', ((before ++ period).foldl IdListFileStore.on s).cachedLen fileId = some n' ∧
            n ≤ n' := by
      intro before period after hevents hkept n hn
      rw [hevents, List.append_assoc] at h
      rw [List.foldl_append]
      exact cachedLen_period (deliveredInOrder_append before s h) hkept n hn
    refine ⟨hlonger, ?_⟩
    intro before period after hevents hkept rc size hsize haccepts
    exact accepts_of_longer (hlonger before period after hevents hkept) hsize haccepts

/-- The bodies that are delivered are prefixes of one file. -/
def PrefixesOf (file : List UInt8) (fileId : String) (events : List FileEvent) : Prop :=
  ∀ event ∈ events, ∀ body, event.bodyFor fileId = some body → body <+: file

def deliveredBody (body : List UInt8) (idListSize : Nat) : FileEvent :=
  .delivered (fileRequest "secret-key" (some idListSize)).toAuthorizedRequestContext
    ⟨.dataAvailable, 0, 0, ⟨false, .plainText, body⟩⟩

/-- Two fetches for different sizes; the shorter body is delivered last, and
the size that was served before is no longer. -/
theorem regresses_after_late_delivery :
    ¬ ∀ (file : List UInt8) (fileId : String) (s : IdListFileStore) (events : List FileEvent),
      PrefixesOf file fileId events → NeverRegresses fileId s events := by
  intro hall
  have hprefixes : PrefixesOf [0x2b, 0x61, 0x0a, 0x2b] "list"
      [deliveredBody [0x2b, 0x61, 0x0a, 0x2b] 4, deliveredBody [0x2b, 0x61] 2] := by
    unfold PrefixesOf
    decide
  have hlonger := (hall _ _ .new _ hprefixes).longer [deliveredBody [0x2b, 0x61, 0x0a, 0x2b] 4]
    [deliveredBody [0x2b, 0x61] 2] [] rfl (by decide) 4 (by decide)
  obtain ⟨n', hn', hle⟩ := hlonger
  have hshort : 2 = n' := Option.some.inj hn'
  omega

end ForwardProxy.Datastore
