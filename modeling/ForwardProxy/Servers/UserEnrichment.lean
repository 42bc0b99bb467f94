/-
ForwardProxy.Servers.UserEnrichment — the requests for the lists of a user
(`user_enrichment_api.rs`).

A request names lookup ids, or a user whose ids are hashed to lookup ids.
The service of the key resolves them, and its limits are those of the
config. Bodies are values here; what the JSON and compression crates make of
them is the parameter `EnrichmentCodec`. Of the rate limiter the model has
what it says. Metrics are left out.
-/
import Mathlib.Data.Finset.Sort
import Mathlib.Data.String.Basic
import ForwardProxy.IdList.Resolver
import ForwardProxy.Servers.HttpServer

namespace ForwardProxy.Servers

open Effect
open ForwardProxy.Datastore
open ForwardProxy.IdList (Lookup ResolvedMemberships dedupeLookupIds)

/-! ## Requests -/

structure EnrichmentUser where
  userId : Option String
  customIds : List (String × String)
  deriving DecidableEq, Repr

/-- The ids of a user, those with a name in the order of their names. -/
def EnrichmentUser.ids (user : EnrichmentUser) : List String :=
  user.userId.toList ++
    (user.customIds.insertionSort fun a b => a.1 ≤ b.1).map Prod.snd

end ForwardProxy.Servers
