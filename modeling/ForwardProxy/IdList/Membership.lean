/-
ForwardProxy.IdList.Membership — the read path (`redis_membership.rs`,
`redis_membership/forward.rs`): which lists is a lookup id a member of?

Both readers are functions of the contents here. Their pipelines are read
at one moment; a Redis error or a timeout, which they pass on, is left
out. The result maps each distinct lookup id to a set of list names, as
an association list in the order the ids were first seen.
-/
import Mathlib.Data.Finset.Option
import Mathlib.Data.Finset.Union
import ForwardProxy.IdList.Redis

namespace ForwardProxy.IdList

abbrev ResolvedMemberships : Type := List (String × Finset String)

/-- `dedupe_lookup_ids`: first occurrences, in order. -/
def dedupeGo (seen : List String) : List String → List String
  | [] => []
  | x :: xs => if x ∈ seen then dedupeGo seen xs else x :: dedupeGo (x :: seen) xs

def dedupeLookupIds (lookupIds : List String) : List String := dedupeGo [] lookupIds

def emptyMemberships (lookupIds : List String) : ResolvedMemberships :=
  lookupIds.map fun lookupId => (lookupId, ∅)

/-- A snapshot of the dictionary: `token_to_name`. -/
abbrev DictSnapshot : Type := Nat → Option String

/-- `DictClient::snapshot`. -/
def Dict.snapshot (d : Dict) : DictSnapshot := d.name

/-- `RedisIdListMembershipFetcher`: the company whose lists it reads, and
the mode it reads in. -/
structure RedisIdListMembershipFetcher where
  skh : String
  enableReverseIndex : Bool

namespace RedisIdListMembershipFetcher

variable (f : RedisIdListMembershipFetcher)

/-- `fetch`: the tokens of the member sets, resolved by the dictionary
snapshot. A token without a name is left out. -/
def fetch (db : Db) (snapshot : DictSnapshot) (lookupIds : List String) : ResolvedMemberships :=
  if (dedupeLookupIds lookupIds).isEmpty then emptyMemberships (dedupeLookupIds lookupIds)
  else if !f.enableReverseIndex then emptyMemberships (dedupeLookupIds lookupIds)
  else (dedupeLookupIds lookupIds).map fun lookupId =>
    (lookupId, (db.member (f.skh, lookupId)).biUnion fun token => (snapshot token).toFinset)

/-- The version a forward read asks: the committed one, or on a first load
the one being loaded. -/
def readVersion (h : StateHash) : Option String :=
  (h.version.filter (· ≠ "")).or (h.loadingVersion.filter (· ≠ ""))

/-- The SMISMEMBER reply of one list for one id. -/
def isForwardMember (db : Db) (list lookupId : String) : Bool :=
  match readVersion (db.state ⟨f.skh, list⟩) with
  | some version => lookupId ∈ (db.fwd ⟨f.skh, list⟩ version).members
  | none => false

/-- `fetch_forward`: the visible lists whose forward set holds the id. -/
def fetchForward (db : Db) (lookupIds : List String) (visible : Finset String) :
    ResolvedMemberships :=
  if lookupIds.isEmpty || visible = ∅ then emptyMemberships lookupIds
  else lookupIds.map fun lookupId =>
    (lookupId, visible.filter fun list => f.isForwardMember db list lookupId = true)

/-- `fetch_visible`. -/
def fetchVisible (db : Db) (snapshot : DictSnapshot) (lookupIds : List String)
    (visible : Finset String) : ResolvedMemberships :=
  if f.enableReverseIndex then f.fetch db snapshot lookupIds
  else f.fetchForward db (dedupeLookupIds lookupIds) visible

end RedisIdListMembershipFetcher

/-- The memberships in the visible lists only. -/
def ResolvedMemberships.restrict (visible : Finset String) (r : ResolvedMemberships) :
    ResolvedMemberships :=
  r.map fun entry => (entry.1, entry.2 ∩ visible)

end ForwardProxy.IdList
