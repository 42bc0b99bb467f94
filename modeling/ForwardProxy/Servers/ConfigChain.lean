/-
ForwardProxy.Servers.ConfigChain — proxies that poll one another for a
config (`http_server.rs`, `config_spec_store.rs`, `http_data_provider.rs`,
`background_data_provider.rs`).

Proxy 0 polls the CDN, and proxy `i + 1` polls proxy `i`. Requests and
answers are messages on their way; they may overtake one another and get
lost. A request is answered from the store as it is when the request
arrives: if a key is missing its fetch is a request and an answer of its
own, before that. Each proxy takes one answer at a time.

There is no backup cache here, and configs are not made of deltas.
-/
import Mathlib.Logic.Relation
import ForwardProxy.Datastore.ConfigSpecStore
import ForwardProxy.Servers.LayeredProxy

namespace ForwardProxy.Servers

open ForwardProxy.Datastore ForwardProxy.Effect

/-! ## One proxy -/

def noUpdateConfig : ResponsePayload := ⟨false, .plainText, dcsNoUpdateJson⟩

/-- `get_config_spec`, after the fetch. -/
def getConfigSpec (s : SpecStores) (rc : AuthorizedRequestContext) (sinceTime : Nat) :
    Option ConfigSpecForCompany :=
  (s.specs.store rc).map fun record =>
    if record.lcut > sinceTime then record else ⟨record.lcut, noUpdateConfig⟩

def downloadConfigSpecs (s : SpecStores) (rc : AuthorizedRequestContext) (sinceTime : Nat) :
    HttpResponse :=
  match getConfigSpec s rc sinceTime with
  | some data => (toRequestPayload data.config data.lcut false).respondTo
  | none => RequestPayloads.respondTo .unauthorized

/-- For an answer with these headers. -/
def dcsRequestBuilder (headers : Headers) : RequestBuilder StoreCmd StoreCmd.Reply Empty where
  onStatus _ _ := .pure ()
  isAnUpdate _ _ := .pure (dcsIsAnUpdate headers)
  backupGet _ := .pure none
  notifyAll := notifyAll

/-- The stores after an answer to a request with a since-time. -/
def takeAnswer (rc : AuthorizedRequestContext) (clearDatastoreOnUnauthorized : Bool)
    (s : SpecStores) (sinceTime : Nat) (response : HttpResponse) : SpecStores :=
  specStoresRunner.after 5
    (BackgroundDataProvider.processRequest (dcsRequestBuilder response.headers) rc sinceTime
      clearDatastoreOnUnauthorized response.attempt response.attempt) s ()

/-! ## The chain -/

/-- How the proxies of a chain are set up, and the context under which each
of them has the config. -/
structure ChainConfig where
  context : Nat → AuthorizedRequestContext
  useLcut : ∀ i, (context i).useLcut = true
  clearDatastoreOnUnauthorized : Nat → Bool

/-- Between proxy `i + 1` and proxy `i`. -/
inductive Message where
  | request (i sinceTime : Nat)
  | answer (i sinceTime : Nat) (response : HttpResponse)
  deriving DecidableEq

structure Chain where
  stores : Nat → SpecStores
  messages : List Message
  /-- The configs that proxy 0 has received. -/
  published : List ConfigSpecForCompany

def Chain.start : Chain := ⟨fun _ => SpecStores.new, [], []⟩

/-- The config of an answer. -/
def answeredConfig (rc : AuthorizedRequestContext) (sinceTime : Nat) (response : HttpResponse) :
    Option ConfigSpecForCompany :=
  let dp := receive rc sinceTime (dcsIsAnUpdate response.headers) response
  dp.body.map fun config => ⟨dp.lcut, config⟩

inductive ChainStep (cfg : ChainConfig) : Chain → Chain → Prop where
  /-- Proxy 0 has an answer of the CDN. -/
  | cdn (c : Chain) (sinceTime : Nat) (response : HttpResponse) :
    ChainStep cfg c
      { c with
        stores := Function.update c.stores 0 (takeAnswer (cfg.context 0)
          (cfg.clearDatastoreOnUnauthorized 0) (c.stores 0) sinceTime response)
        published := c.published ++
          (answeredConfig (cfg.context 0) sinceTime response).toList }
  /-- A fetch of the whole config, or the next poll. -/
  | ask (c : Chain) (i sinceTime : Nat)
    (hsince : sinceTime = 0 ∨
      (c.stores (i + 1)).keys.getLcut (cfg.context (i + 1)) = some sinceTime) :
    ChainStep cfg c { c with messages := c.messages ++ [.request i sinceTime] }
  | serve (c : Chain) (before after : List Message) (i sinceTime : Nat)
    (hmessages : c.messages = before ++ .request i sinceTime :: after) :
    ChainStep cfg c
      { c with
        messages := before ++ after ++ [.answer i sinceTime
          (downloadConfigSpecs (c.stores i) (cfg.context i) sinceTime)] }
  | take (c : Chain) (before after : List Message) (i sinceTime : Nat) (response : HttpResponse)
    (hmessages : c.messages = before ++ .answer i sinceTime response :: after) :
    ChainStep cfg c
      { c with
        stores := Function.update c.stores (i + 1) (takeAnswer (cfg.context (i + 1))
          (cfg.clearDatastoreOnUnauthorized (i + 1)) (c.stores (i + 1)) sinceTime response)
        messages := before ++ after }
  | lose (c : Chain) (before after : List Message) (message : Message)
    (hmessages : c.messages = before ++ message :: after) :
    ChainStep cfg c { c with messages := before ++ after }

def ChainRun (cfg : ChainConfig) : Chain → Chain → Prop := Relation.ReflTransGen (ChainStep cfg)

end ForwardProxy.Servers
