/-
ForwardProxy.IdList.Resolver — a lookup on behalf of one SDK key
(`user_enrichment_api/company_resolver.rs`), with the fetcher it goes
through (`redis_membership.rs`, `redis_membership/forward.rs`).

`Membership` reads the contents at one moment. Here the call is a program
whose reads happen one after the other: the company and the manifest of
the key, the cell of the company's fetcher, every command of the two
pipelines, and the dictionary cache. What the rest of the proxy does
between two of them (ticks, loads, discoveries, refreshes of the cache) is
a parameter of the handler, `Handler.amid`.

A Redis error or a timeout, which the call passes on, is left out, and so
is the refresh that an unknown token schedules: it runs in the background
and changes only the cache.
-/
import ForwardProxy.IdList.Membership
import ForwardProxy.IdList.Producer

namespace ForwardProxy.IdList

open Effect

/-- What a lookup reads: the company each key was discovered to belong to,
the latest manifest of each key, the dictionary cache of each company whose
fetcher is initialized, and Redis. -/
structure Proxy where
  companyId : String → Option String := fun _ => none
  manifests : String → Option IdListManifest := fun _ => none
  fetchers : String → Option DictSnapshot := fun _ => none
  db : Db := {}

inductive LookupCmd where
  /-- `company_ids.get_company_id`. -/
  | companyId (key : String)
  /-- `manifests.load().get(key)`. -/
  | manifest (key : String)
  /-- Whether the company's cell holds a fetcher. -/
  | initialized (skh : String)
  /-- `load_dictionary`: one HGETALL. -/
  | loadDictionary (skh : String)
  /-- The end of `get_or_try_init`: a cell is filled once. -/
  | fillCell (skh : String) (snapshot : DictSnapshot)
  /-- `dict_cache.load_full`. -/
  | dictCache (skh : String)
  | smembers (skh lookupId : String)
  /-- HMGET of the committed and the loading version. -/
  | hmgetVersions (id : ListId)
  | smismember (id : ListId) (ver : String) (lookupIds : List String)
  /-- The iteration order of the visible lists. -/
  | iterate (visible : Finset String)

@[reducible] def LookupCmd.Reply : LookupCmd → Type
  | .companyId _ => Option String
  | .manifest _ => Option IdListManifest
  | .initialized _ => Bool
  | .loadDictionary _ | .dictCache _ => DictSnapshot
  | .fillCell _ _ => Unit
  | .smembers _ _ => Finset Nat
  | .hmgetVersions _ => Option String × Option String
  | .smismember _ _ _ => List Bool
  | .iterate _ => List String

def Proxy.fillCell (s : Proxy) (skh : String) (snapshot : DictSnapshot) : Proxy :=
  { s with fetchers := Function.update s.fetchers skh ((s.fetchers skh).or (some snapshot)) }

def lookups : Handler LookupCmd LookupCmd.Reply Proxy where
  step s c r s' :=
    match c, r with
    | .companyId key, r => r = s.companyId key ∧ s' = s
    | .manifest key, r => r = s.manifests key ∧ s' = s
    | .initialized skh, r => r = (s.fetchers skh).isSome ∧ s' = s
    | .loadDictionary skh, r => r = (s.db.dict skh).snapshot ∧ s' = s
    | .fillCell skh snapshot, _ => s' = s.fillCell skh snapshot
    | .dictCache skh, r => r = (s.fetchers skh).getD (fun _ => none) ∧ s' = s
    | .smembers skh lookupId, r => r = s.db.member (skh, lookupId) ∧ s' = s
    | .hmgetVersions id, r => r = ((s.db.state id).version, (s.db.state id).loadingVersion) ∧ s' = s
    | .smismember id ver lookupIds, r =>
      r = lookupIds.map (fun lookupId => decide (lookupId ∈ (s.db.fwd id ver).members)) ∧ s' = s
    | .iterate visible, r => (r.Nodup ∧ r.toFinset = visible) ∧ s' = s

/-- Redis does not fail here, so a lookup has no error of its own. -/
abbrev Lookup (α : Type) : Type := Prog LookupCmd LookupCmd.Reply Empty α

/-- The names of a manifest. -/
def IdListManifest.names (manifest : IdListManifest) : Finset String :=
  (manifest.map Prod.fst).toFinset

namespace RedisIdListMembershipFetcher

variable (f : RedisIdListMembershipFetcher)

/-- The SMEMBERS pipeline: the tokens of each lookup id. -/
def readTokens (lookupIds : List String) : Lookup (List (String × Finset Nat)) :=
  Prog.fold (fun acc lookupId => do
    let tokens ← Prog.cmd (LookupCmd.smembers f.skh lookupId)
    pure (acc ++ [(lookupId, tokens)])) [] lookupIds

/-- `fetch`, read by read. -/
def fetchReads (lookupIds : List String) : Lookup ResolvedMemberships :=
  if (dedupeLookupIds lookupIds).isEmpty then pure (emptyMemberships (dedupeLookupIds lookupIds))
  else if !f.enableReverseIndex then pure (emptyMemberships (dedupeLookupIds lookupIds))
  else do
    let tokenSets ← f.readTokens (dedupeLookupIds lookupIds)
    let dictionary ← Prog.cmd (LookupCmd.dictCache f.skh)
    pure (tokenSets.map fun entry =>
      (entry.1, entry.2.biUnion fun token => (dictionary token).toFinset))

/-- The HMGET pipeline: the lists that have a version to read, with it. -/
def readVersions (lists : List String) : Lookup (List (String × String)) :=
  Prog.fold (fun acc list => do
    let versions ← Prog.cmd (LookupCmd.hmgetVersions ⟨f.skh, list⟩)
    match readVersion { version := versions.1, loadingVersion := versions.2 } with
    | some version => pure (acc ++ [(list, version)])
    | none => pure acc) [] lists

/-- Add one list to the ids its SMISMEMBER reply names. -/
def addReply (list : String) (result : ResolvedMemberships) (reply : List Bool) :
    ResolvedMemberships :=
  List.zipWith (fun entry member => if member then (entry.1, insert list entry.2) else entry)
    result reply

/-- `fetch_forward`, read by read. -/
def fetchForwardReads (lookupIds : List String) (visible : Finset String) :
    Lookup ResolvedMemberships :=
  if lookupIds.isEmpty || visible = ∅ then pure (emptyMemberships lookupIds)
  else do
    let lists ← Prog.cmd (LookupCmd.iterate visible)
    let queried ← f.readVersions lists
    Prog.fold (fun result query => do
      let reply ← Prog.cmd (LookupCmd.smismember ⟨f.skh, query.1⟩ query.2 lookupIds)
      pure (addReply query.1 result reply)) (emptyMemberships lookupIds) queried

/-- `fetch_visible`, read by read. -/
def fetchVisibleReads (lookupIds : List String) (visible : Finset String) :
    Lookup ResolvedMemberships :=
  if f.enableReverseIndex then f.fetchReads lookupIds
  else f.fetchForwardReads (dedupeLookupIds lookupIds) visible

/-- `RedisIdListMembershipFetcher::new`: the first dictionary of the
cache. -/
def firstDictionary : Lookup DictSnapshot :=
  if f.enableReverseIndex then Prog.cmd (LookupCmd.loadDictionary f.skh)
  else pure fun _ => none

end RedisIdListMembershipFetcher

/-- The resolver's shared part: the mode, and the hash of a company id. -/
structure CompanyMembershipPool where
  enableReverseIndex : Bool
  hashCompanyId : String → String

namespace CompanyMembershipPool

variable (pool : CompanyMembershipPool)

def fetcher (skh : String) : RedisIdListMembershipFetcher := ⟨skh, pool.enableReverseIndex⟩

/-- `namespace_for_key`. -/
def namespaceForKey (key : String) : Lookup (Option String) := do
  let companyId ← Prog.cmd (LookupCmd.companyId key)
  pure (companyId.map pool.hashCompanyId)

/-- `visible_lists`. -/
def visibleLists (key : String) : Lookup (Option (Finset String)) := do
  let manifest ← Prog.cmd (LookupCmd.manifest key)
  pure (manifest.map IdListManifest.names)

/-- `get_or_try_init` on the company's cell. -/
def getOrTryInit (skh : String) : Lookup Unit := do
  let initialized ← Prog.cmd (LookupCmd.initialized skh)
  Prog.when (!initialized) do
    let snapshot ← (pool.fetcher skh).firstDictionary
    Prog.cmd (LookupCmd.fillCell skh snapshot)

/-- The namespace and the visible lists of a key that can see a list. -/
def scope (skh : Option String) (visible : Option (Finset String)) : Option String :=
  match skh, visible with
  | some skh, some visible => if visible = ∅ then none else some skh
  | _, _ => none

/-- The lists the result is filtered by: none if the key has moved to
another company. -/
def visibleNow (key skh : String) : Lookup (Finset String) := do
  let current ← pool.namespaceForKey key
  if current = some skh then do
    let visible ← visibleLists key
    pure (visible.getD ∅)
  else pure ∅

/-- `CompanyKeyResolver::resolve`. -/
def resolve (key : String) (lookupIds : List String) : Lookup ResolvedMemberships := do
  let companyHash ← pool.namespaceForKey key
  let visible ← visibleLists key
  match scope companyHash visible with
  | none => pure (emptyMemberships (dedupeLookupIds lookupIds))
  | some skh => do
    pool.getOrTryInit skh
    let visible ← visibleLists key
    let memberships ← (pool.fetcher skh).fetchVisibleReads lookupIds (visible.getD ∅)
    let visible ← pool.visibleNow key skh
    pure (memberships.restrict visible)

end CompanyMembershipPool

end ForwardProxy.IdList
