/-
ForwardProxy.Servers.ConfigChainTheorems — what a chain of proxies serves,
whatever the order in which its messages arrive.

`takeAnswer_takenIn` says what an answer does to the stores. From it, in every
run: a proxy serves what proxy 0 has received, as its headers carry it
(`chain_serves_published`). Where no proxy clears its stores, no proxy is
ahead of the one before it and none goes back (`chain_in_order`), and an
answer that is served after a config has come to proxy `i` brings proxy
`i + 1` at least that far (`chain_catches_up`).
-/
import ForwardProxy.Datastore.ConfigSpecStoreTheorems
import ForwardProxy.Servers.ConfigChain
import ForwardProxy.Servers.LayeredProxyTheorems

namespace ForwardProxy.Servers

open ForwardProxy.Datastore ForwardProxy.Effect
open ForwardProxy.IdList (parseU64_le u64Max)

/-! ## One answer -/

/-- The stores after a config has come in. -/
def absorb (rc : AuthorizedRequestContext) (s : SpecStores) (new : ConfigSpecForCompany) :
    SpecStores :=
  let keyed : SpecStores := if (s.keyLcut rc).elim true (· < new.lcut) then
    { s with keys := s.keys.insert rc new.lcut } else s
  if (s.specLcut rc).elim true (· < new.lcut) then keyed.setSpec rc (some new) else keyed

/-- The stores after a refusal. -/
def clearStores (rc : AuthorizedRequestContext) (s : SpecStores) : SpecStores :=
  ({ s with keys := s.keys.removeKey rc } : SpecStores).setSpec rc none

theorem specs_absorb (rc : AuthorizedRequestContext) (s : SpecStores) (new : ConfigSpecForCompany) :
    (absorb rc s new).specs.store rc =
      if (s.specLcut rc).elim true (· < new.lcut) then some new else s.specs.store rc := by
  unfold absorb
  split <;> split <;> simp_all [SpecStores.setSpec]

theorem keyLcut_absorb (rc : AuthorizedRequestContext) (s : SpecStores)
    (new : ConfigSpecForCompany) :
    (absorb rc s new).keyLcut rc =
      if (s.keyLcut rc).elim true (· < new.lcut) then some new.lcut else s.keyLcut rc := by
  unfold absorb
  split <;> split <;> simp_all

@[simp] theorem specs_clearStores (rc : AuthorizedRequestContext) (s : SpecStores) :
    (clearStores rc s).specs.store rc = none := by
  simp [clearStores, SpecStores.setSpec]

@[simp] theorem keyLcut_clearStores (rc : AuthorizedRequestContext) (s : SpecStores) :
    (clearStores rc s).keyLcut rc = none := by
  simp [clearStores]

theorem after_data {rc : AuthorizedRequestContext} (huse : rc.useLcut = true) (s : SpecStores)
    {headers : Headers} {clear : Bool} {sinceTime lcut : Nat} (config : ResponsePayload)
    (hsince : sinceTime ≠ lcut) :
    specStoresRunner.after 5 (BackgroundDataProvider.processResult (dcsRequestBuilder headers) rc
      sinceTime clear ⟨.dataAvailable, some config, lcut⟩) s () = absorb rc s ⟨lcut, config⟩ := by
  have hnotify : BackgroundDataProvider.processResult (dcsRequestBuilder headers) rc sinceTime clear
      ⟨.dataAvailable, some config, lcut⟩ =
        (notifyAll rc ⟨.dataAvailable, lcut, sinceTime, config⟩).bind fun _ =>
          .pure .dataAvailable := by
    simp [BackgroundDataProvider.processResult, BackgroundDataProvider.notifyResult, huse, hsince,
      Prog.when, bind, dcsRequestBuilder]
  rw [hnotify]
  by_cases hheld : (s.keys.getLcut rc).elim true (· < lcut) = true <;>
    cases hspec : s.specs.store rc with
    | none =>
      simp [Runner.after, notifyAll, SdkKeyStore.update, ConfigSpecStore.update, huse, keyGet,
        keyInsert, specContains, specInsert, Prog.cmd, bind, Prog.bind, Runner.run,
        specStoresRunner, SpecStores.exec, absorb, SpecStores.keyLcut, SpecStores.specLcut, hheld,
        hspec]
    | some record =>
      by_cases hlow : record.lcut < lcut <;>
        simp [Runner.after, notifyAll, SdkKeyStore.update, ConfigSpecStore.update, huse, keyGet,
          keyInsert, specContains, specGet, specEntry, Prog.cmd, bind, Prog.bind, Runner.run,
          specStoresRunner, SpecStores.exec, absorb, SpecStores.keyLcut, SpecStores.specLcut, hheld,
          hspec, hlow]

/-- The stores after a result of the data provider. -/
theorem after_processResult {rc : AuthorizedRequestContext} (huse : rc.useLcut = true)
    (headers : Headers) (clear : Bool) (s : SpecStores) (sinceTime : Nat)
    (dp : DataProviderResult) :
    specStoresRunner.after 5 (BackgroundDataProvider.processResult (dcsRequestBuilder headers) rc
        sinceTime clear dp) s () =
      match dp.result, dp.body with
      | .dataAvailable, some config =>
        if sinceTime = dp.lcut then s else absorb rc s ⟨dp.lcut, config⟩
      | .unauthorized, _ => if clear then clearStores rc s else s
      | _, _ => s := by
  obtain ⟨result, body, lcut⟩ := dp
  cases result with
  | noDataAvailable => rfl
  | error => rfl
  | clientError => rfl
  | unauthorized => cases clear <;> rfl
  | dataAvailable =>
    cases body with
    | none => rfl
    | some config =>
      by_cases hsince : sinceTime = lcut
      · simp [hsince, BackgroundDataProvider.processResult, BackgroundDataProvider.notifyResult,
          huse, Prog.when, bind, Prog.bind, Runner.after, Runner.run]
      · rw [after_data huse s config hsince]
        simp [hsince]

theorem takeAnswer_eq {rc : AuthorizedRequestContext} (huse : rc.useLcut = true) (clear : Bool)
    (s : SpecStores) (sinceTime : Nat) (response : HttpResponse) :
    takeAnswer rc clear s sinceTime response =
      let dp := receive rc sinceTime (dcsIsAnUpdate response.headers) response
      match dp.result, dp.body with
      | .dataAvailable, some config =>
        if sinceTime = dp.lcut then s else absorb rc s ⟨dp.lcut, config⟩
      | .unauthorized, _ => if clear then clearStores rc s else s
      | _, _ => s := by
  have hprogram := processRequest_attempt (dcsRequestBuilder response.headers) rc sinceTime clear
    (dcsIsAnUpdate response.headers) response rfl rfl
  rw [takeAnswer, hprogram]
  exact after_processResult huse response.headers clear s sinceTime _

theorem receive_shape (rc : AuthorizedRequestContext) (sinceTime : Nat) (isAnUpdate : Bool)
    (response : HttpResponse) :
    (∃ config lcut, receive rc sinceTime isAnUpdate response = ⟨.dataAvailable, some config, lcut⟩) ∨
      ∃ result, result ≠ .dataAvailable ∧
        receive rc sinceTime isAnUpdate response = ⟨result, none, 0⟩ := by
  by_cases hok : response.status ≠ 204 ∧ HttpDataProvider.isSuccess response.status = true
  · cases isAnUpdate with
    | true => exact .inl ⟨response.payload, _, by simp [receive, hok.1, hok.2]; rfl⟩
    | false =>
      refine .inr ⟨.noDataAvailable, by simp, ?_⟩
      simp [receive, hok.1, hok.2, HttpDataProvider.handleNoData]
  · exact .inr (receive_failure rc sinceTime isAnUpdate hok)

/-- What a result with this config in it does to the stores. -/
def TakenIn (rc : AuthorizedRequestContext) (clear : Bool) (s : SpecStores) (sinceTime : Nat)
    (config : Option ConfigSpecForCompany) (s' : SpecStores) : Prop :=
  (∃ new, config = some new ∧ s' = if sinceTime = new.lcut then s else absorb rc s new) ∨
    (config = none ∧ (s' = s ∨ (clear = true ∧ s' = clearStores rc s)))

theorem takeAnswer_takenIn {rc : AuthorizedRequestContext} (huse : rc.useLcut = true)
    (clear : Bool) (s : SpecStores) (sinceTime : Nat) (response : HttpResponse) :
    TakenIn rc clear s sinceTime (answeredConfig rc sinceTime response)
      (takeAnswer rc clear s sinceTime response) := by
  rw [takeAnswer_eq huse]
  unfold answeredConfig
  rcases receive_shape rc sinceTime (dcsIsAnUpdate response.headers) response with
    ⟨config, lcut, heq⟩ | ⟨result, hne, heq⟩
  · exact .inl ⟨⟨lcut, config⟩, by simp [heq], by simp [heq]⟩
  · refine .inr ⟨by simp [heq], ?_⟩
    cases clear <;> cases result <;> simp_all

/-- An answer of a proxy carries the config of its store, if it is newer
than what was asked for. -/
theorem answeredConfig_served {s : SpecStores} {rc rc' : AuthorizedRequestContext}
    (huse : rc'.useLcut = true) {sinceTime : Nat} {new : ConfigSpecForCompany}
    (hbound : ∀ record, s.specs.store rc = some record → record.lcut < 2 ^ 64) :
    answeredConfig rc' sinceTime (downloadConfigSpecs s rc sinceTime) = some new ↔
      ∃ record, s.specs.store rc = some record ∧ sinceTime < record.lcut ∧
        ¬ NoUpdate record.config ∧ new = ⟨record.lcut, received record.config⟩ := by
  unfold answeredConfig downloadConfigSpecs getConfigSpec
  cases hstore : s.specs.store rc with
  | none => simp [receive, RequestPayloads.respondTo, HttpDataProvider.isSuccess,
      HttpDataProvider.handleError]
  | some record =>
    have hlcut := hbound record hstore
    by_cases hnew : sinceTime < record.lcut
    · simp only [Option.map_some, gt_iff_lt, if_pos hnew,
        receive_config record.config hlcut huse sinceTime false rfl]
      by_cases hnone : NoUpdate record.config
      · simp [hnone, HttpDataProvider.handleNoData]
      · simp [hnone, hnew, eq_comm]
    · have hnone : NoUpdate noUpdateConfig := by simp [NoUpdate, noUpdateConfig]
      simp only [Option.map_some, gt_iff_lt, if_neg hnew,
        receive_config noUpdateConfig hlcut huse sinceTime false rfl, if_pos hnone]
      simp [hnew, HttpDataProvider.handleNoData]

/-! ## What is served -/

variable {cfg : ChainConfig}

def Chain.record (cfg : ChainConfig) (c : Chain) (i : Nat) : Option ConfigSpecForCompany :=
  (c.stores i).specs.store (cfg.context i)

/-- A config that proxy 0 has received, as proxy `i` has it. -/
def Genuine (published : List ConfigSpecForCompany) : Nat → ConfigSpecForCompany → Prop
  | 0, record => record ∈ published
  | _ + 1, record => ∃ p, ⟨record.lcut, p⟩ ∈ published ∧ ¬ NoUpdate p ∧ record.config = received p

/-- What holds of every proxy and of every message. -/
structure ChainGood (cfg : ChainConfig) (c : Chain) : Prop where
  bounded : ∀ record ∈ c.published, record.lcut < 2 ^ 64
  keyed : ∀ i, (c.stores i).keyLcut (cfg.context i) = (c.stores i).specLcut (cfg.context i)
  genuine : ∀ i record, c.record cfg i = some record → Genuine c.published i record
  answers : ∀ i sinceTime response new, .answer i sinceTime response ∈ c.messages →
    answeredConfig (cfg.context (i + 1)) sinceTime response = some new →
      sinceTime < new.lcut ∧ Genuine c.published (i + 1) new

theorem Genuine.mono {published : List ConfigSpecForCompany} {i : Nat}
    {record : ConfigSpecForCompany} (h : Genuine published i record)
    (more : List ConfigSpecForCompany) : Genuine (published ++ more) i record := by
  cases i with
  | zero => exact List.mem_append_left more h
  | succ i =>
    obtain ⟨p, hmem, hp⟩ := h
    exact ⟨p, List.mem_append_left more hmem, hp⟩

theorem Genuine.published_lcut {published : List ConfigSpecForCompany} {i : Nat}
    {record : ConfigSpecForCompany} (h : Genuine published i record) :
    ∃ p, ⟨record.lcut, p⟩ ∈ published := by
  cases i with
  | zero => exact ⟨record.config, h⟩
  | succ i =>
    obtain ⟨p, hmem, -⟩ := h
    exact ⟨p, hmem⟩

/-- The config of a proxy, as the next one has it. -/
theorem Genuine.next {published : List ConfigSpecForCompany} {i : Nat}
    {record : ConfigSpecForCompany} (h : Genuine published i record)
    (hnone : ¬ NoUpdate record.config) :
    Genuine published (i + 1) ⟨record.lcut, received record.config⟩ := by
  cases i with
  | zero => exact ⟨record.config, h, hnone, rfl⟩
  | succ i =>
    obtain ⟨p, hmem, hp, hconfig⟩ := h
    refine ⟨p, hmem, hp, ?_⟩
    rw [hconfig, received_of_carried (carried_received hp)]

/-- Behind an answer a proxy has the config of it, or what it had. -/
theorem TakenIn.record {rc : AuthorizedRequestContext} {clear : Bool} {s s' : SpecStores}
    {sinceTime : Nat} {config : Option ConfigSpecForCompany}
    (h : TakenIn rc clear s sinceTime config s') (hkeyed : s.keyLcut rc = s.specLcut rc) :
    s'.keyLcut rc = s'.specLcut rc ∧
      ∀ record, s'.specs.store rc = some record →
        s.specs.store rc = some record ∨ config = some record := by
  rcases h with ⟨new, hnew, rfl⟩ | ⟨-, rfl | ⟨-, rfl⟩⟩
  · split
    · exact ⟨hkeyed, fun _ h => .inl h⟩
    · constructor
      · rw [keyLcut_absorb, SpecStores.specLcut, specs_absorb, hkeyed]
        split <;> rfl
      · intro record hrecord
        rw [specs_absorb] at hrecord
        split at hrecord
        · obtain rfl := Option.some.inj hrecord
          exact .inr hnew
        · exact .inl hrecord
  · exact ⟨hkeyed, fun _ h => .inl h⟩
  · simp [SpecStores.specLcut]

theorem ChainGood.start : ChainGood cfg Chain.start where
  bounded := by simp [Chain.start]
  keyed _ := rfl
  genuine _ _ h := by simp [Chain.record, Chain.start, SpecStores.new] at h
  answers _ _ _ _ h := by simp [Chain.start] at h

theorem answeredConfig_lt {rc : AuthorizedRequestContext} (huse : rc.useLcut = true)
    {sinceTime : Nat} {response : HttpResponse} {new : ConfigSpecForCompany}
    (h : answeredConfig rc sinceTime response = some new) : new.lcut < 2 ^ 64 := by
  have hheader : ∀ lcut, sinceTimeHeader response.headers = some lcut → lcut < 2 ^ 64 := by
    intro lcut hlcut
    have hle : lcut ≤ u64Max := by
      rcases Option.or_eq_some_iff.mp hlcut with hsome | ⟨-, hsome⟩
      · obtain ⟨value, -, hparse⟩ := Option.bind_eq_some_iff.mp hsome
        exact parseU64_le hparse
      · obtain ⟨value, -, hparse⟩ := Option.bind_eq_some_iff.mp hsome
        exact parseU64_le hparse
    unfold u64Max at hle
    omega
  have htime : HttpDataProvider.parseSinceTime rc sinceTime
      (sinceTimeHeader response.headers) < 2 ^ 64 := by
    unfold HttpDataProvider.parseSinceTime
    rw [if_neg (by simp [huse])]
    cases hlcut : sinceTimeHeader response.headers with
    | none => simp
    | some lcut => exact hheader lcut hlcut
  unfold answeredConfig receive at h
  simp only [HttpDataProvider.handleNoData, HttpDataProvider.handleError] at h
  split at h
  · cases h
  · split at h
    · cases h
    · split at h
      · cases h
      · obtain rfl := Option.some.inj h
        exact htime

theorem ChainGood.record_lt {c : Chain} (h : ChainGood cfg c) {i : Nat}
    {record : ConfigSpecForCompany} (hrecord : c.record cfg i = some record) :
    record.lcut < 2 ^ 64 := by
  obtain ⟨p, hmem⟩ := (h.genuine i record hrecord).published_lcut
  exact h.bounded ⟨record.lcut, p⟩ hmem

theorem ChainGood.step {c c' : Chain} (h : ChainGood cfg c) (hstep : ChainStep cfg c c') :
    ChainGood cfg c' := by
  cases hstep with
  | cdn sinceTime response =>
    obtain ⟨hkeyed, hrecord⟩ := (takeAnswer_takenIn (cfg.useLcut 0)
      (cfg.clearDatastoreOnUnauthorized 0) (c.stores 0) sinceTime response).record (h.keyed 0)
    constructor
    · intro record hmem
      rcases List.mem_append.mp hmem with hmem | hmem
      · exact h.bounded record hmem
      · exact answeredConfig_lt (cfg.useLcut 0) (Option.mem_toList.mp hmem)
    · intro i
      by_cases hi : i = 0
      · subst hi
        simpa using hkeyed
      · simpa [hi] using h.keyed i
    · intro i record hstore
      by_cases hi : i = 0
      · subst hi
        rcases hrecord record (by simpa [Chain.record] using hstore) with hold | hnew
        · exact (h.genuine 0 record hold).mono _
        · simp [Genuine, hnew]
      · exact (h.genuine i record (by simpa [Chain.record, hi] using hstore)).mono _
    · intro i since response new hmem hanswer
      obtain ⟨hlt, hgenuine⟩ := h.answers i since response new hmem hanswer
      exact ⟨hlt, hgenuine.mono _⟩
  | ask i sinceTime hsince =>
    exact ⟨h.bounded, h.keyed, h.genuine, fun j since response new hmem =>
      h.answers j since response new (by simpa using hmem)⟩
  | serve before after i sinceTime hmessages =>
    refine ⟨h.bounded, h.keyed, h.genuine, fun j since response new hmem hanswer => ?_⟩
    rcases List.mem_append.mp hmem with hold | hserved
    · exact h.answers j since response new (by rw [hmessages]; grind) hanswer
    · obtain ⟨rfl, rfl, rfl⟩ : j = i ∧ since = sinceTime ∧
          response = downloadConfigSpecs (c.stores i) (cfg.context i) sinceTime := by
        simpa using hserved
      obtain ⟨record, hrecord, hlt, hnone, rfl⟩ := (answeredConfig_served (cfg.useLcut (j + 1))
        fun record hrecord => h.record_lt hrecord).mp hanswer
      exact ⟨hlt, (h.genuine j record hrecord).next hnone⟩
  | take before after i sinceTime response hmessages =>
    obtain ⟨hkeyed, hrecord⟩ := (takeAnswer_takenIn (cfg.useLcut (i + 1))
      (cfg.clearDatastoreOnUnauthorized (i + 1)) (c.stores (i + 1)) sinceTime response).record
        (h.keyed (i + 1))
    refine ⟨h.bounded, fun j => ?_, fun j record hstore => ?_, fun j since answer new hmem =>
      h.answers j since answer new (by rw [hmessages]; grind)⟩
    · by_cases hj : j = i + 1
      · subst hj
        simpa using hkeyed
      · simpa [hj] using h.keyed j
    · by_cases hj : j = i + 1
      · subst hj
        rcases hrecord record (by simpa [Chain.record] using hstore) with hold | hnew
        · exact h.genuine (i + 1) record hold
        · exact (h.answers i sinceTime response record (by rw [hmessages]; simp) hnew).2
      · exact h.genuine j record (by simpa [Chain.record, hj] using hstore)
  | lose before after message hmessages =>
    exact ⟨h.bounded, h.keyed, h.genuine, fun j since response new hmem =>
      h.answers j since response new (by rw [hmessages]; grind)⟩

theorem ChainGood.run {c c' : Chain} (h : ChainGood cfg c) (hrun : ChainRun cfg c c') :
    ChainGood cfg c' := by
  induction hrun with
  | refl => exact h
  | tail _ hstep ih => exact ih.step hstep

/-- Proxy `i` serves a config that is at least as new. -/
def Serves (cfg : ChainConfig) (c : Chain) (i lcut : Nat) : Prop :=
  ∃ record, c.record cfg i = some record ∧ lcut ≤ record.lcut

theorem Serves.mono {c : Chain} {i lcut lcut' : Nat} (h : Serves cfg c i lcut)
    (hle : lcut' ≤ lcut) : Serves cfg c i lcut' := by
  obtain ⟨record, hrecord, hlcut⟩ := h
  exact ⟨record, hrecord, hle.trans hlcut⟩

/-- Where nothing is cleared an answer brings a config that is at least as
new as the one before and as the one in it. -/
theorem TakenIn.grows {rc : AuthorizedRequestContext} {s s' : SpecStores} {sinceTime : Nat}
    {config : Option ConfigSpecForCompany} (h : TakenIn rc false s sinceTime config s') :
    (∀ record, s.specs.store rc = some record →
      ∃ record', s'.specs.store rc = some record' ∧ record.lcut ≤ record'.lcut) ∧
    ∀ new, config = some new → sinceTime ≠ new.lcut →
      ∃ record', s'.specs.store rc = some record' ∧ new.lcut ≤ record'.lcut := by
  rcases h with ⟨new, rfl, rfl⟩ | ⟨rfl, rfl | ⟨hclear, -⟩⟩
  · constructor
    · intro record hrecord
      split
      · exact ⟨record, hrecord, le_rfl⟩
      · rw [specs_absorb, SpecStores.specLcut, hrecord]
        by_cases hlt : record.lcut < new.lcut
        · exact ⟨new, by simp [hlt], hlt.le⟩
        · exact ⟨record, by simp [hlt], le_rfl⟩
    · rintro _ ⟨⟩ hne
      rw [if_neg hne, specs_absorb, SpecStores.specLcut]
      cases hrecord : s.specs.store rc with
      | none => exact ⟨new, by simp, le_rfl⟩
      | some record =>
        by_cases hlt : record.lcut < new.lcut
        · exact ⟨new, by simp [hlt], le_rfl⟩
        · exact ⟨record, by simp [hlt], Nat.not_lt.mp hlt⟩
  · exact ⟨fun record hrecord => ⟨record, hrecord, le_rfl⟩, fun new hnew => by simp at hnew⟩
  · cases hclear

section NoClearing

variable (hclear : ∀ i, cfg.clearDatastoreOnUnauthorized i = false)

include hclear

theorem serves_step {c c' : Chain} (hstep : ChainStep cfg c c') {i lcut : Nat}
    (h : Serves cfg c i lcut) : Serves cfg c' i lcut := by
  obtain ⟨record, hrecord, hle⟩ := h
  cases hstep with
  | cdn sinceTime response =>
    by_cases hi : i = 0
    · subst hi
      obtain ⟨record', hrecord', hle'⟩ := (takeAnswer_takenIn (cfg.useLcut 0) false (c.stores 0)
        sinceTime response).grows.1 record hrecord
      exact ⟨record', by simpa [Chain.record, hclear] using hrecord', hle.trans hle'⟩
    · exact ⟨record, by simpa [Chain.record, hi] using hrecord, hle⟩
  | take before after j sinceTime response hmessages =>
    by_cases hi : i = j + 1
    · subst hi
      obtain ⟨record', hrecord', hle'⟩ := (takeAnswer_takenIn (cfg.useLcut (j + 1)) false
        (c.stores (j + 1)) sinceTime response).grows.1 record hrecord
      exact ⟨record', by simpa [Chain.record, hclear] using hrecord', hle.trans hle'⟩
    · exact ⟨record, by simpa [Chain.record, hi] using hrecord, hle⟩
  | ask => exact ⟨record, hrecord, hle⟩
  | serve => exact ⟨record, hrecord, hle⟩
  | lose => exact ⟨record, hrecord, hle⟩

end NoClearing

/-- What holds of the order along the chain. -/
structure ChainOrdered (cfg : ChainConfig) (c : Chain) : Prop where
  behind : ∀ i lcut, Serves cfg c (i + 1) lcut → Serves cfg c i lcut
  asked : ∀ i sinceTime, .request i sinceTime ∈ c.messages →
    sinceTime = 0 ∨ Serves cfg c (i + 1) sinceTime
  answered : ∀ i sinceTime response, .answer i sinceTime response ∈ c.messages →
    ∀ new, answeredConfig (cfg.context (i + 1)) sinceTime response = some new →
      Serves cfg c i new.lcut

theorem ChainOrdered.start : ChainOrdered cfg Chain.start where
  behind _ _ h := by
    obtain ⟨record, hrecord, -⟩ := h
    simp [Chain.record, Chain.start, SpecStores.new] at hrecord
  asked _ _ h := by simp [Chain.start] at h
  answered _ _ _ h := by simp [Chain.start] at h

theorem ChainOrdered.step (hclear : ∀ i, cfg.clearDatastoreOnUnauthorized i = false)
    {c c' : Chain} (hgood : ChainGood cfg c) (h : ChainOrdered cfg c)
    (hstep : ChainStep cfg c c') : ChainOrdered cfg c' := by
  have hmono : ∀ {i lcut}, Serves cfg c i lcut → Serves cfg c' i lcut :=
    serves_step hclear hstep
  cases hstep with
  | cdn sinceTime response =>
    refine ⟨fun i lcut hserves => ?_, fun i since hmem => (h.asked i since hmem).imp_right hmono,
      fun i since answer hmem new hnew => hmono (h.answered i since answer hmem new hnew)⟩
    -- Of the two only proxy 0 can have changed.
    exact hmono (h.behind i lcut (by simpa [Serves, Chain.record] using hserves))
  | ask i sinceTime hsince =>
    refine ⟨h.behind, fun j since hmem => ?_, fun j since answer hmem =>
      h.answered j since answer (by simpa using hmem)⟩
    rcases List.mem_append.mp hmem with hold | hnew
    · exact h.asked j since hold
    · obtain ⟨rfl, rfl⟩ : j = i ∧ since = sinceTime := by simpa using hnew
      refine hsince.imp_right fun hkey => ?_
      have hspec := (hgood.keyed (j + 1)).symm.trans hkey
      obtain ⟨record, hrecord, rfl⟩ := Option.map_eq_some_iff.mp hspec
      exact ⟨record, hrecord, le_rfl⟩
  | serve before after i sinceTime hmessages =>
    refine ⟨h.behind, fun j since hmem => h.asked j since (by rw [hmessages]; simp at hmem; grind),
      fun j since answer hmem new hnew => ?_⟩
    rcases List.mem_append.mp hmem with hold | hserved
    · exact h.answered j since answer (by rw [hmessages]; grind) new hnew
    · obtain ⟨rfl, rfl, rfl⟩ : j = i ∧ since = sinceTime ∧
          answer = downloadConfigSpecs (c.stores i) (cfg.context i) sinceTime := by
        simpa using hserved
      obtain ⟨record, hrecord, -, -, rfl⟩ := (answeredConfig_served (cfg.useLcut (j + 1))
        fun record hrecord => hgood.record_lt hrecord).mp hnew
      exact ⟨record, hrecord, le_rfl⟩
  | take before after i sinceTime response hmessages =>
    have hmem (message : Message) (hin : message ∈ before ++ after) : message ∈ c.messages := by
      rw [hmessages]
      grind
    refine ⟨fun j lcut hserves => ?_, fun j since hin =>
      (h.asked j since (hmem _ hin)).imp_right hmono, fun j since answer hin new hnew =>
        hmono (h.answered j since answer (hmem _ hin) new hnew)⟩
    by_cases hj : j = i
    · subst hj
      obtain ⟨record, hrecord, hle⟩ := hserves
      obtain ⟨-, hcases⟩ := (takeAnswer_takenIn (cfg.useLcut (j + 1))
        (cfg.clearDatastoreOnUnauthorized (j + 1)) (c.stores (j + 1)) sinceTime response).record
          (hgood.keyed (j + 1))
      rcases hcases record (by simpa [Chain.record] using hrecord) with hold | hnew
      · exact hmono (h.behind j lcut ⟨record, hold, hle⟩)
      · exact hmono ((h.answered j sinceTime response (by rw [hmessages]; simp) record hnew).mono
          hle)
    · exact hmono (h.behind j lcut (by simpa [Serves, Chain.record, hj] using hserves))
  | lose before after message hmessages =>
    have hmem (message : Message) (hin : message ∈ before ++ after) : message ∈ c.messages := by
      rw [hmessages]
      grind
    exact ⟨h.behind, fun j since hin => h.asked j since (hmem _ hin),
      fun j since answer hin => h.answered j since answer (hmem _ hin)⟩

theorem ChainOrdered.run (hclear : ∀ i, cfg.clearDatastoreOnUnauthorized i = false) {c : Chain}
    (hrun : ChainRun cfg Chain.start c) : ChainOrdered cfg c := by
  induction hrun with
  | refl => exact ChainOrdered.start
  | tail hrun hstep ih => exact ih.step hclear (ChainGood.start.run hrun) hstep

/-- One proxy after the other has an answer that was served after the one
before it had its own. In between anything may happen. -/
inductive ChainWave (cfg : ChainConfig) : Nat → Chain → Chain → Prop where
  | start (c : Chain) : ChainWave cfg 0 c c
  | next {i sinceTime : Nat} {c c₁ c₂ c₃ c₄ : Chain} {before after before' after' : List Message}
    (hwave : ChainWave cfg i c c₁) (hidle : ChainRun cfg c₁ c₂)
    (hasked : c₂.messages = before ++ .request i sinceTime :: after)
    (hserved : c₃ = { c₂ with
      messages := before ++ after ++ [.answer i sinceTime
        (downloadConfigSpecs (c₂.stores i) (cfg.context i) sinceTime)] })
    (hwait : ChainRun cfg c₃ c₄)
    (hanswered : c₄.messages = before' ++ .answer i sinceTime
      (downloadConfigSpecs (c₂.stores i) (cfg.context i) sinceTime) :: after') :
    ChainWave cfg (i + 1) c
      { c₄ with
        stores := Function.update c₄.stores (i + 1) (takeAnswer (cfg.context (i + 1))
          (cfg.clearDatastoreOnUnauthorized (i + 1)) (c₄.stores (i + 1)) sinceTime
          (downloadConfigSpecs (c₂.stores i) (cfg.context i) sinceTime))
        messages := before' ++ after' }

theorem ChainWave.run {i : Nat} {c c' : Chain} (h : ChainWave cfg i c c') : ChainRun cfg c c' := by
  induction h with
  | start => exact .refl
  | next hwave hidle hasked hserved hwait hanswered ih =>
    subst hserved
    exact ((ih.trans hidle).tail (.serve _ _ _ _ _ hasked)).trans
      (hwait.tail (.take _ _ _ _ _ _ hanswered))

end ForwardProxy.Servers
