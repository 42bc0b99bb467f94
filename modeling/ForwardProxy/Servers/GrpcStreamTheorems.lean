/-
ForwardProxy.Servers.GrpcStreamTheorems — whether a stream ends with the
config that is stored.

A stream misses an update in two places. One that is broadcast between the
read of the initial config and the subscription is in neither. And a
receiver that lags would go on with the value that is kept, but the stream
subscribes again and so skips it. Besides, the tasks that broadcast are not
ordered: a smaller lcut may be sent after a greater one that found no
receiver. A run without these (`onTime`) keeps every stream up to date.

Updates store greater and greater lcuts here (`growing`).
-/
import ForwardProxy.Servers.GrpcStream

namespace ForwardProxy.Servers

open Effect Datastore

/-! ## The condition -/

/-- The update is not going to reach a stream that subscribes now. -/
def ConfigUpdate.passed (update : ConfigUpdate) : Bool := update.broadcast || !update.observed

/-- No update that has passed has a greater lcut. -/
def GrpcServer.passedUpTo (s : GrpcServer) (lcut : Nat) : Bool :=
  s.updates.all fun update => !update.passed || update.lcut ≤ lcut

/-- An update stores a lcut that is greater than the stored one. -/
def growing (s : GrpcServer) : GrpcEvent → Bool
  | .store i => s.updates[i]?.all fun update => s.stored.all fun spec => spec.lcut < update.lcut
  | _ => true

/-- A stream that subscribes has the lcut of every update that has passed;
a lcut that is sent is the greatest that has passed; no receiver lags. -/
def onTime (s : GrpcServer) : GrpcEvent → Bool
  | .broadcast i =>
    s.updates[i]?.all fun update =>
      !s.hasReceivers || s.channel.all (fun channel => update.lcut ≤ channel.lastUpdated) ||
        s.passedUpTo update.lcut
  | .stream j .subscribe =>
    s.streams[j]?.all fun stream =>
      match stream.phase with
      | .fetched init | .registered init => s.passedUpTo init.lastUpdated
      | _ => true
  | .stream j .recv =>
    s.streams[j]?.all fun stream =>
      match stream.phase with
      | .listening next _ => s.channel.all fun channel => channel.sender.recv next ≠ .lagged
      | _ => true
  | _ => true

/-- All updates are stored and broadcast. -/
def GrpcServer.Quiescent (s : GrpcServer) : Prop :=
  ∀ update ∈ s.updates, update.stored = true ∧ update.passed = true

/-- Nothing is there for the receiver. -/
def GrpcServer.NothingPending (s : GrpcServer) (next : Nat) : Prop :=
  ∀ channel, s.channel = some channel → channel.sender.unread next = []

/-- A stream with nothing pending has sent the stored lcut last. -/
def StreamsLatest (s : GrpcServer) : Prop :=
  s.Quiescent → ∀ stream ∈ s.streams, ∀ next latestLcut,
    stream.phase = .listening next latestLcut → s.NothingPending next →
    (stream.sent.getLast?.map fun response => response.lastUpdated) =
      s.stored.map fun spec => spec.lcut

/-! ## The invariant -/

/-- The lcut of a stream that has read the payload. -/
def takeLcut (lcut : Nat) : StreamPayload → Nat
  | some (_, newer) => newer
  | none => lcut

def GrpcServer.Known (s : GrpcServer) (lcut : Nat) : Prop :=
  ∃ update ∈ s.updates, update.lcut = lcut

/-- The receiver gets at least to the lcut of every update that has passed. -/
structure Tracks (s : GrpcServer) (next latestLcut : Nat) : Prop where
  known : s.Known latestLcut
  upTo : ∃ channel, s.channel = some channel ∧ next ≤ channel.sender.sent.length ∧
    s.passedUpTo (channel.sender.outcome takeLcut next latestLcut) = true

def StreamOk (s : GrpcServer) (stream : Stream) : Prop :=
  match stream.phase with
  | .requested _ | .ended => True
  | .lagged _ => False
  | .fetched init | .registered init => s.Known init.lastUpdated
  | .subscribed init next => Tracks s next init.lastUpdated
  | .listening next latestLcut =>
    Tracks s next latestLcut ∧
      (stream.sent.getLast?.map fun response => response.lastUpdated) = some latestLcut

structure UpToDate (s : GrpcServer) : Prop where
  below : ∀ update ∈ s.updates, update.stored = true →
    ∃ spec, s.stored = some spec ∧ update.lcut ≤ spec.lcut
  origin : ∀ spec, s.stored = some spec → s.Known spec.lcut
  lastUpdated : ∀ channel, s.channel = some channel →
    channel.lastUpdated = 0 ∨
      ∃ update ∈ s.updates, update.passed = true ∧ update.lcut = channel.lastUpdated
  messages : ∀ channel, s.channel = some channel →
    ∀ body lcut, some (body, lcut) ∈ channel.sender.sent → s.Known lcut
  streams : ∀ stream ∈ s.streams, StreamOk s stream

theorem upToDate_new : UpToDate .new where
  below := by simp [GrpcServer.new]
  origin := by simp [GrpcServer.new]
  lastUpdated := by simp [GrpcServer.new]
  messages := by simp [GrpcServer.new]
  streams := by simp [GrpcServer.new]

/-- The stored lcut is at least that of every update, and a stream that has
read everything is at least there too. -/
theorem UpToDate.streamsLatest {s : GrpcServer} (h : UpToDate s) : StreamsLatest s := by
  intro hquiescent stream hmem next latestLcut hphase hpending
  have hok := h.streams stream hmem
  simp only [StreamOk, hphase] at hok
  obtain ⟨⟨⟨update, hupdate, rfl⟩, channel, hchannel, _, hupTo⟩, hlast⟩ := hok
  obtain ⟨spec, hspec, hle⟩ := h.below update hupdate (hquiescent update hupdate).1
  rw [Broadcast.outcome_of_unread (hpending channel hchannel)] at hupTo
  obtain ⟨update', hupdate', hlcut⟩ := h.origin spec hspec
  have hge : update'.lcut ≤ update.lcut := by
    have hall := List.all_eq_true.mp hupTo update' hupdate'
    simpa [(hquiescent update' hupdate').2] using hall
  rw [hlast, hspec, Option.map_some]
  congr 1
  omega

/-! ## One step -/

section Step

variable {s s' : GrpcServer}

theorem passedUpTo_iff {lcut : Nat} :
    s.passedUpTo lcut = true ↔ ∀ update ∈ s.updates, update.passed = true → update.lcut ≤ lcut := by
  simp only [GrpcServer.passedUpTo, List.all_eq_true, Bool.or_eq_true, Bool.not_eq_true',
    decide_eq_true_eq]
  constructor
  · intro h update hupdate hpassed
    rcases h update hupdate with hnot | hle
    · rw [hpassed] at hnot
      simp at hnot
    · exact hle
  · intro h update hupdate
    by_cases hpassed : update.passed = true
    · exact .inr (h update hupdate hpassed)
    · exact .inl (by simpa using hpassed)

theorem StreamOk.mono {stream : Stream} (h : StreamOk s stream)
    (hknown : ∀ lcut, s.Known lcut → s'.Known lcut)
    (htracks : stream.receiving = true → ∀ next latestLcut, Tracks s next latestLcut →
      Tracks s' next latestLcut) : StreamOk s' stream := by
  obtain ⟨phase, sent⟩ := stream
  cases phase with
  | requested sinceTime => trivial
  | ended => trivial
  | lagged latestLcut => exact h
  | fetched init => exact hknown _ h
  | registered init => exact hknown _ h
  | subscribed init next => exact htracks rfl _ _ h
  | listening next latestLcut => exact ⟨htracks rfl _ _ h.1, h.2⟩

/-- The channel is the same and no further update passes. -/
theorem Tracks.congr {next latestLcut : Nat} (h : Tracks s next latestLcut)
    (hknown : ∀ lcut, s.Known lcut → s'.Known lcut) (hchannel : s'.channel = s.channel)
    (hpassed : s.channel.isSome = true → ∀ lcut, s.passedUpTo lcut = true →
      s'.passedUpTo lcut = true) : Tracks s' next latestLcut := by
  obtain ⟨hk, channel, hc, hnext, hupTo⟩ := h
  exact ⟨hknown _ hk, channel, hchannel.trans hc, hnext, hpassed (by rw [hc]; rfl) _ hupTo⟩

/-- Every update is still there, with its lcut, and has passed if it had. -/
def KeepsUpdates (s s' : GrpcServer) : Prop :=
  ∀ update ∈ s.updates, ∃ update' ∈ s'.updates,
    update'.lcut = update.lcut ∧ (update.passed = true → update'.passed = true)

theorem KeepsUpdates.known (h : KeepsUpdates s s') {lcut : Nat} (hlcut : s.Known lcut) :
    s'.Known lcut := by
  obtain ⟨update, hupdate, rfl⟩ := hlcut
  obtain ⟨update', hupdate', hl, _⟩ := h update hupdate
  exact ⟨update', hupdate', hl⟩

theorem KeepsUpdates.lastUpdated (h : KeepsUpdates s s') {lcut : Nat}
    (hlcut : lcut = 0 ∨ ∃ update ∈ s.updates, update.passed = true ∧ update.lcut = lcut) :
    lcut = 0 ∨ ∃ update ∈ s'.updates, update.passed = true ∧ update.lcut = lcut := by
  rcases hlcut with hzero | ⟨update, hupdate, hpassed, hl⟩
  · exact .inl hzero
  · obtain ⟨update', hupdate', hl', hpassed'⟩ := h update hupdate
    exact .inr ⟨update', hupdate', hpassed' hpassed, hl'.trans hl⟩

theorem keepsUpdates_set {i : Nat} {update : ConfigUpdate} (update' : ConfigUpdate)
    (hupdate : s.updates[i]? = some update) (hlcut : update'.lcut = update.lcut)
    (hpassed : update.passed = true → update'.passed = true)
    (hupdates : s'.updates = s.updates.set i update') : KeepsUpdates s s' := by
  intro other hother
  obtain ⟨k, hk, rfl⟩ := List.getElem_of_mem hother
  rw [hupdates]
  by_cases hki : k = i
  · subst hki
    have hsame : s.updates[k] = update := by
      simpa [List.getElem?_eq_getElem hk] using hupdate
    rw [hsame]
    exact ⟨update', List.mem_set hk update', hlcut, hpassed⟩
  · have hget : (s.updates.set i update')[k]? = some s.updates[k] := by
      rw [List.getElem?_set_ne (Ne.symm hki), List.getElem?_eq_getElem hk]
    exact ⟨s.updates[k], List.mem_of_getElem? hget, rfl, id⟩

theorem upToDate_notify (h : UpToDate s) {lcut : Nat} {body : ResponsePayload}
    (hs' : s' = { s with
      updates := s.updates ++ [⟨lcut, body, s.channel.isSome, false, false⟩] }) :
    UpToDate s' := by
  have hchannel : s'.channel = s.channel := by rw [hs']
  have hupdates : s'.updates = s.updates ++ [⟨lcut, body, s.channel.isSome, false, false⟩] := by
    rw [hs']
  have hkeeps : KeepsUpdates s s' := by
    intro update hupdate
    exact ⟨update, hupdates ▸ List.mem_append_left _ hupdate, rfl, id⟩
  constructor
  · intro update hupdate hstored
    rw [hupdates] at hupdate
    rcases List.mem_append.mp hupdate with hold | hnew
    · rw [hs']
      exact h.below update hold hstored
    · rw [List.mem_singleton.mp hnew] at hstored
      simp at hstored
  · intro spec hspec
    rw [hs'] at hspec
    exact hkeeps.known (h.origin spec hspec)
  · intro channel hc
    exact hkeeps.lastUpdated (h.lastUpdated channel (hchannel ▸ hc))
  · intro channel hc body' l hmem
    exact hkeeps.known (h.messages channel (hchannel ▸ hc) body' l hmem)
  · intro stream hstream
    have hold : stream ∈ s.streams := by rwa [hs'] at hstream
    refine (h.streams stream hold).mono (fun _ => hkeeps.known) fun _ next latestLcut htracks =>
      htracks.congr (fun _ => hkeeps.known) hchannel ?_
    intro hregistered l hl
    rw [passedUpTo_iff] at hl ⊢
    intro update hupdate hpassed
    rw [hupdates] at hupdate
    rcases List.mem_append.mp hupdate with hold | hnew
    · exact hl update hold hpassed
    · -- the channel is registered, so the update is on its way to it
      rw [List.mem_singleton.mp hnew] at hpassed
      simp [ConfigUpdate.passed, hregistered] at hpassed

theorem upToDate_store (h : UpToDate s) {i : Nat} {update : ConfigUpdate}
    (hupdate : s.updates[i]? = some update)
    (hgrows : ∀ spec, s.stored = some spec → spec.lcut < update.lcut)
    (hs' : s' = { s with
      stored := s.storeSpec update.lcut update.body
      updates := s.updates.set i { update with stored := true } }) : UpToDate s' := by
  have hchannel : s'.channel = s.channel := by rw [hs']
  have hupdates : s'.updates = s.updates.set i { update with stored := true } := by rw [hs']
  have hstored : s'.stored = some ⟨update.lcut, update.body⟩ := by
    rw [hs']
    unfold GrpcServer.storeSpec
    cases hspec : s.stored with
    | none => rfl
    | some spec => exact if_pos (hgrows spec hspec)
  have hmem : update ∈ s.updates := List.mem_of_getElem? hupdate
  have hkeeps : KeepsUpdates s s' :=
    keepsUpdates_set { update with stored := true } hupdate rfl id hupdates
  constructor
  · intro other hother hst
    refine ⟨_, hstored, ?_⟩
    rw [hupdates] at hother
    rcases List.mem_or_eq_of_mem_set hother with hold | rfl
    · obtain ⟨spec, hspec, hle⟩ := h.below other hold hst
      exact hle.trans (hgrows spec hspec).le
    · exact le_rfl
  · intro spec hspec
    rw [hstored] at hspec
    obtain rfl := Option.some.inj hspec
    exact hkeeps.known ⟨update, hmem, rfl⟩
  · intro channel hc
    exact hkeeps.lastUpdated (h.lastUpdated channel (hchannel ▸ hc))
  · intro channel hc body lcut hsent
    exact hkeeps.known (h.messages channel (hchannel ▸ hc) body lcut hsent)
  · intro stream hstream
    have hold : stream ∈ s.streams := by rwa [hs'] at hstream
    refine (h.streams stream hold).mono (fun _ => hkeeps.known) fun _ next latestLcut htracks =>
      htracks.congr (fun _ => hkeeps.known) hchannel ?_
    intro _ lcut hl
    rw [passedUpTo_iff] at hl ⊢
    intro other hother hpassed
    rw [hupdates] at hother
    rcases List.mem_or_eq_of_mem_set hother with hold | rfl
    · exact hl other hold hpassed
    · exact hl update hmem hpassed

/-- What a step of the channel gives a receiver. -/
theorem outcome_update {channel : StreamingChannel} {next : Nat}
    (hnext : next ≤ channel.sender.sent.length) (latestLcut : Nat) (receivers : Bool) (lcut : Nat)
    (body : ResponsePayload) :
    next ≤ (channel.update receivers lcut body).sender.sent.length ∧
      ((channel.update receivers lcut body).sender.outcome takeLcut next latestLcut =
        if lcut > channel.lastUpdated && receivers then lcut
        else channel.sender.outcome takeLcut next latestLcut) := by
  unfold StreamingChannel.update
  split
  · refine ⟨?_, Broadcast.outcome_send hnext⟩
    simp only [Broadcast.send, List.length_append, List.length_singleton]
    omega
  · exact ⟨hnext, rfl⟩

/-- After its broadcast an update has reached every receiver, if the
condition holds: it is sent, and is the greatest, or a greater one was. -/
theorem tracks_broadcast (h : UpToDate s) {i : Nat} {update : ConfigUpdate}
    {channel : StreamingChannel} (hupdate : s.updates[i]? = some update)
    (hchannel : s.channel = some channel) (hreceivers : s.hasReceivers = true)
    (hguard : onTime s (.broadcast i) = true)
    (hs' : s' = { s with
      channel := some (channel.update s.hasReceivers update.lcut update.body)
      updates := s.updates.set i { update with broadcast := true } })
    {next latestLcut : Nat} (htracks : Tracks s next latestLcut) : Tracks s' next latestLcut := by
  have hkeeps : KeepsUpdates s s' :=
    keepsUpdates_set { update with broadcast := true } hupdate rfl (fun _ => rfl) (by rw [hs'])
  obtain ⟨hknown, channel', hchannel', hnext, hupTo⟩ := htracks
  obtain rfl : channel' = channel := Option.some.inj (hchannel'.symm.trans hchannel)
  obtain ⟨hlength, houtcome⟩ := outcome_update hnext latestLcut s.hasReceivers update.lcut
    update.body
  refine ⟨hkeeps.known hknown, _, by rw [hs'], hlength, ?_⟩
  rw [passedUpTo_iff] at hupTo ⊢
  rw [houtcome, hreceivers]
  intro other hother hpassed
  have hcases : other ∈ s.updates ∨ other = { update with broadcast := true } := by
    rw [hs'] at hother
    exact List.mem_or_eq_of_mem_set hother
  by_cases hsent : update.lcut > channel'.lastUpdated
  · -- it is sent
    rw [if_pos (by simpa using hsent)]
    have hall : s.passedUpTo update.lcut = true := by
      have hfresh : ¬ update.lcut ≤ channel'.lastUpdated := by omega
      simpa [onTime, hupdate, hreceivers, hchannel, hfresh] using hguard
    rcases hcases with hold | rfl
    · exact passedUpTo_iff.mp hall other hold hpassed
    · exact le_rfl
  · -- it is not newer than the last one sent
    rw [if_neg (by simpa using hsent)]
    rcases hcases with hold | rfl
    · exact hupTo other hold hpassed
    · change update.lcut ≤ _
      rcases h.lastUpdated channel' hchannel with hzero | ⟨last, hlast, hpassed', hl⟩
      · omega
      · exact (by omega : update.lcut ≤ last.lcut).trans (hupTo last hlast hpassed')

theorem upToDate_broadcast (h : UpToDate s) {i : Nat} {update : ConfigUpdate}
    {channel : StreamingChannel} (hupdate : s.updates[i]? = some update)
    (hchannel : s.channel = some channel) (hguard : onTime s (.broadcast i) = true)
    (hs' : s' = { s with
      channel := some (channel.update s.hasReceivers update.lcut update.body)
      updates := s.updates.set i { update with broadcast := true } }) : UpToDate s' := by
  have hupdates : s'.updates = s.updates.set i { update with broadcast := true } := by rw [hs']
  have hkeeps : KeepsUpdates s s' :=
    keepsUpdates_set { update with broadcast := true } hupdate rfl (fun _ => rfl) hupdates
  have hnew : s'.channel = some (channel.update s.hasReceivers update.lcut update.body) := by
    rw [hs']
  have hmem : update ∈ s.updates := List.mem_of_getElem? hupdate
  have hself : { update with broadcast := true } ∈ s'.updates := by
    rw [hupdates]
    exact List.mem_set (List.getElem?_eq_some_iff.mp hupdate).1 _
  constructor
  · intro other hother hstored
    rw [hupdates] at hother
    rw [hs']
    rcases List.mem_or_eq_of_mem_set hother with hold | rfl
    · exact h.below other hold hstored
    · exact h.below update hmem hstored
  · intro spec hspec
    rw [hs'] at hspec
    exact hkeeps.known (h.origin spec hspec)
  · intro channel' hc
    obtain rfl := Option.some.inj (hc.symm.trans hnew)
    unfold StreamingChannel.update
    split
    · exact .inr ⟨_, hself, rfl, rfl⟩
    · exact hkeeps.lastUpdated (h.lastUpdated channel hchannel)
  · intro channel' hc body lcut hsent
    obtain rfl := Option.some.inj (hc.symm.trans hnew)
    unfold StreamingChannel.update at hsent
    split at hsent
    · rcases List.mem_append.mp hsent with hold | hlast
      · exact hkeeps.known (h.messages channel hchannel body lcut hold)
      · obtain ⟨rfl, rfl⟩ : body = update.body ∧ lcut = update.lcut := by simpa using hlast
        exact ⟨_, hself, rfl⟩
    · exact hkeeps.known (h.messages channel hchannel body lcut hsent)
  · intro stream hstream
    have hold : stream ∈ s.streams := by rwa [hs'] at hstream
    refine (h.streams stream hold).mono (fun _ => hkeeps.known) ?_
    -- a stream that tracks the channel is one of its receivers
    intro hreceiving next latestLcut
    have hreceivers : s.hasReceivers = true := List.any_eq_true.mpr ⟨stream, hold, hreceiving⟩
    exact tracks_broadcast h hupdate hchannel hreceivers hguard hs'

/-- A shutdown takes nothing away from a receiver. -/
theorem upToDate_shutdown (h : UpToDate s) {channel : StreamingChannel}
    (hchannel : s.channel = some channel)
    (hs' : s' = { s with channel := some { channel with sender := channel.sender.send none } }) :
    UpToDate s' := by
  have hupdates : s'.updates = s.updates := by rw [hs']
  have hnew : s'.channel = some { channel with sender := channel.sender.send none } := by rw [hs']
  have hkeeps : KeepsUpdates s s' := by
    intro update hupdate
    exact ⟨update, hupdates ▸ hupdate, rfl, id⟩
  constructor
  · intro update hupdate hstored
    rw [hs']
    exact h.below update (hupdates ▸ hupdate) hstored
  · intro spec hspec
    rw [hs'] at hspec
    exact hkeeps.known (h.origin spec hspec)
  · intro channel' hc
    obtain rfl := Option.some.inj (hc.symm.trans hnew)
    exact hkeeps.lastUpdated (h.lastUpdated channel hchannel)
  · intro channel' hc body lcut hsent
    obtain rfl := Option.some.inj (hc.symm.trans hnew)
    rcases List.mem_append.mp hsent with hold | hlast
    · exact hkeeps.known (h.messages channel hchannel body lcut hold)
    · simp at hlast
  · intro stream hstream
    have hold : stream ∈ s.streams := by rwa [hs'] at hstream
    refine (h.streams stream hold).mono (fun _ => hkeeps.known) ?_
    rintro _ next latestLcut ⟨hknown, channel', hchannel', hnext, hupTo⟩
    obtain rfl : channel' = channel := Option.some.inj (hchannel'.symm.trans hchannel)
    refine ⟨hkeeps.known hknown, _, hnew, ?_, ?_⟩
    · simp only [Broadcast.send, List.length_append, List.length_singleton]
      omega
    · rw [Broadcast.outcome_send hnext, GrpcServer.passedUpTo, hupdates]
      exact hupTo

/-- A stream that has just subscribed. -/
theorem tracks_subscribe {channel : StreamingChannel} (hchannel : s.channel = some channel)
    {lcut : Nat} (hknown : s.Known lcut) (hpassed : s.passedUpTo lcut = true) :
    Tracks s channel.sender.subscribe lcut := by
  refine ⟨hknown, channel, hchannel, le_rfl, ?_⟩
  rw [Broadcast.outcome_subscribe]
  exact hpassed

/-- A stream that has received an update. -/
theorem tracks_recv (h : UpToDate s) {channel : StreamingChannel} (hchannel : s.channel = some channel)
    {next latestLcut lcut : Nat} {body : ResponsePayload}
    (hupTo : s.passedUpTo (channel.sender.outcome takeLcut next latestLcut) = true)
    (hrecv : channel.sender.recv next = .value (some (body, lcut))) :
    Tracks s (next + 1) lcut := by
  have hsent : some (body, lcut) ∈ channel.sender.sent := by
    have hunread := Broadcast.unread_of_recv hrecv
    exact List.mem_of_mem_drop (hunread ▸ List.mem_cons_self)
  refine ⟨h.messages channel hchannel body lcut hsent, channel, hchannel,
    Broadcast.lt_of_recv hrecv, ?_⟩
  have houtcome := Broadcast.outcome_recv (f := takeLcut) (b := latestLcut) hrecv
  rw [show takeLcut latestLcut (some (body, lcut)) = lcut from rfl] at houtcome
  rw [houtcome]
  exact hupTo

theorem streamOk_next (h : UpToDate s) {j : Nat} {stream stream' : Stream} {event : StreamEvent}
    (hstream : s.streams[j]? = some stream) (hguard : onTime s (.stream j event) = true)
    (hnext : s.streamNext stream event = some stream') : StreamOk s stream' := by
  have hok := h.streams stream (List.mem_of_getElem? hstream)
  obtain ⟨phase, sent⟩ := stream
  cases event with
  | fetch =>
    cases phase with
    | requested sinceTime =>
      cases hstored : s.stored with
      | none =>
        obtain rfl : _ = stream' := by simpa [GrpcServer.streamNext, hstored] using hnext
        trivial
      | some spec =>
        obtain rfl : _ = stream' := by simpa [GrpcServer.streamNext, hstored] using hnext
        exact h.origin spec hstored
    | _ => simp [GrpcServer.streamNext] at hnext
  | register =>
    cases phase with
    | fetched init =>
      cases hchannel : s.channel with
      | none =>
        obtain rfl : _ = stream' := by simpa [GrpcServer.streamNext, hchannel] using hnext
        exact hok
      | some channel => simp [GrpcServer.streamNext, hchannel] at hnext
    | _ => simp [GrpcServer.streamNext] at hnext
  | subscribe =>
    cases hchannel : s.channel with
    | none => cases phase <;> simp [GrpcServer.streamNext, hchannel] at hnext
    | some channel =>
      cases phase with
      | fetched init =>
        have hpassed : s.passedUpTo init.lastUpdated = true := by
          simpa [onTime, hstream] using hguard
        simp only [GrpcServer.streamNext, hchannel] at hnext
        split at hnext
        · simp at hnext
        · obtain rfl := Option.some.inj hnext
          exact tracks_subscribe hchannel hok hpassed
      | registered init =>
        have hpassed : s.passedUpTo init.lastUpdated = true := by
          simpa [onTime, hstream] using hguard
        obtain rfl : _ = stream' := by simpa [GrpcServer.streamNext, hchannel] using hnext
        exact tracks_subscribe hchannel hok hpassed
      | _ => simp [GrpcServer.streamNext] at hnext
  | sendInit =>
    cases phase with
    | subscribed init next =>
      obtain rfl : _ = stream' := by simpa [GrpcServer.streamNext] using hnext
      exact ⟨hok, by simp⟩
    | _ => simp [GrpcServer.streamNext] at hnext
  | recv =>
    cases phase with
    | listening next latestLcut =>
      obtain ⟨⟨hknown, channel, hchannel, hle, hupTo⟩, hlast⟩ := hok
      simp only [GrpcServer.streamNext, hchannel] at hnext
      cases hrecv : channel.sender.recv next with
      | pending => simp [hrecv] at hnext
      | lagged => simp [onTime, hstream, hchannel, hrecv] at hguard
      | value payload =>
        cases payload with
        | none =>
          obtain rfl : _ = stream' := by simpa [hrecv] using hnext
          trivial
        | some message =>
          obtain ⟨body, lcut⟩ := message
          obtain rfl : _ = stream' := by simpa [hrecv] using hnext
          exact ⟨tracks_recv h hchannel hupTo hrecv, by simp⟩
    | _ => simp [GrpcServer.streamNext] at hnext
  | resubscribe =>
    cases phase with
    | lagged latestLcut => exact hok.elim
    | _ => simp [GrpcServer.streamNext] at hnext
  | timeout =>
    cases phase with
    | listening next latestLcut =>
      obtain rfl : _ = stream' := by simpa [GrpcServer.streamNext] using hnext
      exact ⟨hok.1, by simp⟩
    | _ => simp [GrpcServer.streamNext] at hnext
  | disconnect =>
    cases phase with
    | listening next latestLcut =>
      obtain rfl : _ = stream' := by simpa [GrpcServer.streamNext] using hnext
      trivial
    | _ => simp [GrpcServer.streamNext] at hnext

/-- The channel is created for the first receiver. -/
theorem channel_of_next {stream stream' : Stream} {event : StreamEvent}
    (hnext : s.streamNext stream event = some stream') :
    event ≠ .register ∨ s.channel = none := by
  cases event with
  | register =>
    right
    cases hchannel : s.channel with
    | none => rfl
    | some channel =>
      obtain ⟨phase, sent⟩ := stream
      cases phase <;> simp [GrpcServer.streamNext, hchannel] at hnext
  | _ => exact .inl (by simp)

theorem upToDate_stream (h : UpToDate s) {j : Nat} {stream stream' : Stream} {event : StreamEvent}
    (hstream : s.streams[j]? = some stream) (hguard : onTime s (.stream j event) = true)
    (hnext : s.streamNext stream event = some stream')
    (hs' : s' = { s with
      streams := s.streams.set j stream'
      channel := if event = .register then some StreamingChannel.new else s.channel }) :
    UpToDate s' := by
  have hupdates : s'.updates = s.updates := by rw [hs']
  have hknown : ∀ lcut, s.Known lcut → s'.Known lcut := by
    intro lcut hlcut
    rw [GrpcServer.Known, hupdates]
    exact hlcut
  have hchannel : s'.channel = s.channel ∨
      s.channel = none ∧ s'.channel = some StreamingChannel.new := by
    rw [hs']
    by_cases hregister : event = .register
    · have hnone := (channel_of_next hnext).resolve_left (by simp [hregister])
      exact .inr ⟨hnone, if_pos hregister⟩
    · exact .inl (if_neg hregister)
  have hmono : ∀ other, StreamOk s other → StreamOk s' other := by
    intro other hok
    refine hok.mono hknown ?_
    intro _ next latestLcut htracks
    rcases hchannel with hsame | ⟨hnone, _⟩
    · refine htracks.congr hknown hsame ?_
      intro _ lcut hlcut
      rw [GrpcServer.passedUpTo, hupdates]
      exact hlcut
    · obtain ⟨_, channel, hc, _⟩ := htracks
      rw [hnone] at hc
      simp at hc
  constructor
  · intro update hupdate hstored
    rw [hs']
    exact h.below update (hupdates ▸ hupdate) hstored
  · intro spec hspec
    rw [hs'] at hspec
    exact hknown _ (h.origin spec hspec)
  · intro channel hc
    rw [hupdates]
    rcases hchannel with hsame | ⟨_, hnew⟩
    · exact h.lastUpdated channel (hsame ▸ hc)
    · obtain rfl := Option.some.inj (hc.symm.trans hnew)
      exact .inl rfl
  · intro channel hc body lcut hsent
    rcases hchannel with hsame | ⟨_, hnew⟩
    · exact hknown _ (h.messages channel (hsame ▸ hc) body lcut hsent)
    · obtain rfl := Option.some.inj (hc.symm.trans hnew)
      simp [StreamingChannel.new] at hsent
  · intro other hother
    have hcases : other ∈ s.streams ∨ other = stream' := by
      rw [hs'] at hother
      exact List.mem_or_eq_of_mem_set hother
    rcases hcases with hold | rfl
    · exact hmono other (h.streams other hold)
    · exact hmono other (streamOk_next h hstream hguard hnext)

/-- A new request is no receiver yet. -/
theorem upToDate_request (h : UpToDate s) (sinceTime : Nat) :
    UpToDate { s with streams := s.streams ++ [⟨.requested sinceTime, []⟩] } where
  below := h.below
  origin := h.origin
  lastUpdated := h.lastUpdated
  messages := h.messages
  streams := by
    intro stream hstream
    rcases List.mem_append.mp hstream with hold | hnew
    · refine (h.streams stream hold).mono (fun _ hk => hk) ?_
      intro _ next latestLcut htracks
      exact htracks.congr (fun _ hk => hk) rfl fun _ _ hl => hl
    · rw [List.mem_singleton.mp hnew]
      trivial

theorem upToDate_exec (h : UpToDate s) {event : GrpcEvent} (hgrows : growing s event = true)
    (hguard : onTime s event = true) (hexec : s.exec event = some s') : UpToDate s' := by
  cases event with
  | notify lcut body => exact upToDate_notify h (Option.some.inj hexec).symm
  | store i =>
    cases hupdate : s.updates[i]? with
    | none => simp [GrpcServer.exec, hupdate] at hexec
    | some update =>
      simp only [GrpcServer.exec, hupdate] at hexec
      split at hexec
      · simp at hexec
      · refine upToDate_store h hupdate ?_ (Option.some.inj hexec).symm
        intro spec hspec
        simpa [growing, hupdate, hspec] using hgrows
  | broadcast i =>
    cases hupdate : s.updates[i]? with
    | none => simp [GrpcServer.exec, hupdate] at hexec
    | some update =>
      cases hchannel : s.channel with
      | none => simp [GrpcServer.exec, hupdate, hchannel] at hexec
      | some channel =>
        simp only [GrpcServer.exec, hupdate, hchannel] at hexec
        split at hexec
        · exact upToDate_broadcast h hupdate hchannel hguard (Option.some.inj hexec).symm
        · simp at hexec
  | request sinceTime =>
    obtain rfl := Option.some.inj hexec
    exact upToDate_request h sinceTime
  | stream j event =>
    cases hstream : s.streams[j]? with
    | none => simp [GrpcServer.exec, hstream] at hexec
    | some stream =>
      simp only [GrpcServer.exec, hstream] at hexec
      obtain ⟨stream', hnext, hs'⟩ := Option.map_eq_some_iff.mp hexec
      exact upToDate_stream h hstream hguard hnext hs'.symm
  | shutdown =>
    cases hchannel : s.channel with
    | none =>
      obtain rfl : s = s' := by simpa [GrpcServer.exec, hchannel] using hexec
      exact h
    | some channel =>
      simp only [GrpcServer.exec, hchannel] at hexec
      split at hexec
      · simp at hexec
      split at hexec
      · exact upToDate_shutdown h hchannel (Option.some.inj hexec).symm
      · obtain rfl := Option.some.inj hexec
        exact h

end Step

/-! ## Runs -/

/-- **A stream does not miss the latest config**, in every run that is on
time. -/
theorem streams_latest {events : List GrpcEvent} {s : GrpcServer}
    (hrun : GrpcServer.run (fun s event => growing s event && onTime s event) .new events =
      some s) : StreamsLatest s := by
  have hinv : ∀ (events : List GrpcEvent) (t : GrpcServer), UpToDate t →
      t.run (fun s event => growing s event && onTime s event) events = some s → UpToDate s := by
    intro events
    induction events with
    | nil =>
      intro t ht hrun
      obtain rfl := Option.some.inj hrun
      exact ht
    | cons event events ih =>
      intro t ht hrun
      unfold GrpcServer.run at hrun
      split at hrun
      · rename_i hguard
        obtain ⟨hgrows, honTime⟩ := Bool.and_eq_true_iff.mp hguard
        obtain ⟨t', hexec, hrest⟩ := Option.bind_eq_some_iff.mp hrun
        exact ih t' (upToDate_exec ht hgrows honTime hexec) hrest
      · simp at hrun
  exact (hinv events .new upToDate_new hrun).streamsLatest

/-- An update of an empty config. -/
def specUpdate (lcut : Nat) : GrpcEvent := .notify lcut ⟨false, .plainText, []⟩

/-- The first config is stored, and a stream is set up. -/
def streamSetUp : List GrpcEvent :=
  [specUpdate 10, .store 0, .request 0, .stream 0 .fetch, .stream 0 .register,
    .stream 0 .subscribe, .stream 0 .sendInit]

/-- A second update, received before a third one is broadcast. -/
def streamInTime : List GrpcEvent :=
  streamSetUp ++ [specUpdate 20, .store 1, .broadcast 1, .stream 0 .recv, specUpdate 30, .store 2,
    .broadcast 2, .stream 0 .recv]

/-- Both are broadcast before the stream gets to receive. -/
def streamLagging : List GrpcEvent :=
  streamSetUp ++ [specUpdate 20, .store 1, .broadcast 1, specUpdate 30, .store 2, .broadcast 2,
    .stream 0 .recv, .stream 0 .resubscribe]

/-- Whether all is quiet, what the first stream has sent last with nothing
pending, and the stored lcut. -/
def GrpcServer.summary (s : GrpcServer) : Bool × Option Nat × Option Nat :=
  (s.updates.all fun update => update.stored && update.passed,
    s.streams.head?.bind fun stream =>
      match stream.phase with
      | .listening next _ =>
        if s.channel.all fun channel => (channel.sender.unread next).isEmpty then
          stream.sent.getLast?.map fun response => response.lastUpdated
        else none
      | _ => none,
    s.stored.map fun spec => spec.lcut)

theorem StreamsLatest.summary {s : GrpcServer} (h : StreamsLatest s) {sent stored : Nat}
    (hsummary : s.summary = (true, some sent, some stored)) : sent = stored := by
  simp only [GrpcServer.summary, Prod.mk.injEq] at hsummary
  obtain ⟨hquiet, hsent, hstored⟩ := hsummary
  obtain ⟨stream, hhead, hsent⟩ := Option.bind_eq_some_iff.mp hsent
  have hquiescent : s.Quiescent := by
    intro update hupdate
    simpa using List.all_eq_true.mp hquiet update hupdate
  cases hphase : stream.phase with
  | listening next latestLcut =>
    simp only [hphase] at hsent
    split at hsent
    · rename_i hempty
      have hpending : s.NothingPending next := by
        intro channel hchannel
        simpa [hchannel] using hempty
      have hmem : stream ∈ s.streams := List.mem_of_mem_head? hhead
      have hsame := h hquiescent stream hmem next latestLcut hphase hpending
      exact Option.some.inj (hsent.symm.trans (hsame.trans hstored))
    · simp at hsent
  | _ => simp [hphase] at hsent

theorem streams_latest_in_time :
    ∃ s, GrpcServer.run (fun s event => growing s event && onTime s event) .new streamInTime =
      some s ∧ s.summary = (true, some 30, some 30) ∧ StreamsLatest s := by
  have hsome : (GrpcServer.run (fun s event => growing s event && onTime s event) .new
      streamInTime).map GrpcServer.summary = some (true, some 30, some 30) := by decide +kernel
  obtain ⟨s, hrun, hsummary⟩ := Option.map_eq_some_iff.mp hsome
  exact ⟨s, hrun, hsummary, streams_latest hrun⟩

/-- A stream that lags ends with its initial config. -/
theorem stream_behind_after_lag :
    ¬ ∀ (events : List GrpcEvent) (s : GrpcServer),
      GrpcServer.run growing .new events = some s → StreamsLatest s := by
  intro hall
  have hsome : (GrpcServer.run growing .new streamLagging).map GrpcServer.summary =
      some (true, some 10, some 30) := by decide +kernel
  obtain ⟨s, hrun, hsummary⟩ := Option.map_eq_some_iff.mp hsome
  have hsame := (hall streamLagging s hrun).summary hsummary
  omega

end ForwardProxy.Servers
