/-
ForwardProxy.IdList.ResolverTheorems — a lookup of one key shows nothing
of other keys, other lists and other companies.

`Agree` is what a key's answers may depend on: its own company and
manifest and, for the lists of that manifest, the dictionary entries, the
member-set entries under their tokens, the state and the forward sets. The
dictionary in question is the one the company's fetcher would use: its
cache, or the one in Redis if the fetcher is not initialized yet.

A call is compared with `resolved`, the answer read off the state at one
moment. It is reached by every run in which the others leave the key's
view alone (`wp_resolve`), so that two runs from states with the same view
have one answer. What is returned is visible at the moment of the filter
whatever the others do, since the filter reads the manifest last.
-/
import ForwardProxy.Effect.Interference
import ForwardProxy.IdList.Resolver

namespace ForwardProxy.IdList

open Effect

variable {pool : CompanyMembershipPool} {key skh list lookupId : String} {s s' t : Proxy}
  {lookupIds : List String} {names : Finset String}

/-! ## The view of a key -/

/-- The names a key sees. -/
def Proxy.visible (s : Proxy) (key : String) : Finset String :=
  ((s.manifests key).map IdListManifest.names).getD ∅

/-- The dictionary the company's fetcher uses. -/
def Proxy.dictionary (s : Proxy) (skh : String) : DictSnapshot :=
  (s.fetchers skh).getD (s.db.dict skh).snapshot

/-- The namespace of a key's company. -/
def CompanyMembershipPool.namespaceOf (pool : CompanyMembershipPool) (s : Proxy) (key : String) :
    Option String :=
  (s.companyId key).map pool.hashCompanyId

/-- The two states hold the same for the tokens of the visible lists. -/
structure SameTokens (skh : String) (names : Finset String) (s t : Proxy) : Prop where
  name : ∀ list ∈ names, ∀ token,
    t.dictionary skh token = some list ↔ s.dictionary skh token = some list
  member : ∀ list ∈ names, ∀ token, s.dictionary skh token = some list → ∀ lookupId,
    token ∈ t.db.member (skh, lookupId) ↔ token ∈ s.db.member (skh, lookupId)

/-- The two states hold the same forward sets of the visible lists. -/
structure SameForward (skh : String) (names : Finset String) (s t : Proxy) : Prop where
  state : ∀ list ∈ names, t.db.state ⟨skh, list⟩ = s.db.state ⟨skh, list⟩
  fwd : ∀ list ∈ names, ∀ ver, t.db.fwd ⟨skh, list⟩ ver = s.db.fwd ⟨skh, list⟩ ver

/-- The company and the manifest of the key are the same. -/
structure SameScope (key : String) (s t : Proxy) : Prop where
  companyId : t.companyId key = s.companyId key
  manifest : t.manifests key = s.manifests key

/-- The two states agree on all a key may see. -/
structure Agree (pool : CompanyMembershipPool) (key : String) (s t : Proxy) : Prop where
  scope : SameScope key s t
  tokens : ∀ skh, pool.namespaceOf s key = some skh → SameTokens skh (s.visible key) s t
  forward : ∀ skh, pool.namespaceOf s key = some skh → SameForward skh (s.visible key) s t

theorem SameScope.trans {u : Proxy} (h : SameScope key s t) (h' : SameScope key t u) :
    SameScope key s u :=
  ⟨h'.companyId.trans h.companyId, h'.manifest.trans h.manifest⟩

theorem SameScope.visible (h : SameScope key s t) : t.visible key = s.visible key := by
  rw [Proxy.visible, h.manifest, Proxy.visible]

theorem SameScope.namespaceOf (h : SameScope key s t) :
    pool.namespaceOf t key = pool.namespaceOf s key := by
  rw [CompanyMembershipPool.namespaceOf, h.companyId, CompanyMembershipPool.namespaceOf]

theorem SameTokens.trans {u : Proxy} (h : SameTokens skh names s t)
    (h' : SameTokens skh names t u) : SameTokens skh names s u where
  name list hlist token := (h'.name list hlist token).trans (h.name list hlist token)
  member list hlist token hname lookupId :=
    (h'.member list hlist token ((h.name list hlist token).2 hname) lookupId).trans
      (h.member list hlist token hname lookupId)

theorem SameForward.trans {u : Proxy} (h : SameForward skh names s t)
    (h' : SameForward skh names t u) : SameForward skh names s u where
  state list hlist := (h'.state list hlist).trans (h.state list hlist)
  fwd list hlist ver := (h'.fwd list hlist ver).trans (h.fwd list hlist ver)

theorem SameTokens.refl : SameTokens skh names s s :=
  ⟨fun _ _ _ => Iff.rfl, fun _ _ _ _ _ => Iff.rfl⟩

theorem SameForward.refl : SameForward skh names s s :=
  ⟨fun _ _ => rfl, fun _ _ _ => rfl⟩

theorem Agree.refl : Agree pool key s s :=
  ⟨⟨rfl, rfl⟩, fun _ _ => .refl, fun _ _ => .refl⟩

/-- What the others may do beside a lookup of `key`: anything outside its
view. A fetcher that is initialized stays so. -/
structure Bystander (pool : CompanyMembershipPool) (key : String) (s t : Proxy) : Prop where
  agree : Agree pool key s t
  fetchers : ∀ skh, s.fetchers skh ≠ none → t.fetchers skh ≠ none

/-! ## The answer read off one state -/

/-- What `resolve` answers when nothing changes during the call. -/
def CompanyMembershipPool.resolved (pool : CompanyMembershipPool) (s : Proxy) (key : String)
    (lookupIds : List String) : ResolvedMemberships :=
  match pool.namespaceOf s key with
  | some skh =>
    ((pool.fetcher skh).fetchVisible s.db (s.dictionary skh) lookupIds (s.visible key)).restrict
      (s.visible key)
  | none => emptyMemberships (dedupeLookupIds lookupIds)

theorem restrict_empty (r : ResolvedMemberships) :
    r.restrict ∅ = emptyMemberships (r.map Prod.fst) := by
  simp [ResolvedMemberships.restrict, emptyMemberships]

theorem fetchVisible_keys (f : RedisIdListMembershipFetcher) (db : Db) (snapshot : DictSnapshot) :
    (f.fetchVisible db snapshot lookupIds names).map Prod.fst = dedupeLookupIds lookupIds := by
  simp only [RedisIdListMembershipFetcher.fetchVisible, RedisIdListMembershipFetcher.fetch,
    RedisIdListMembershipFetcher.fetchForward]
  split_ifs <;> simp [emptyMemberships, Function.comp_def]

/-- A key without visible lists, or without a company, has no memberships. -/
theorem resolved_of_not_scope
    (h : CompanyMembershipPool.scope (pool.namespaceOf s key)
      ((s.manifests key).map IdListManifest.names) = none) :
    pool.resolved s key lookupIds = emptyMemberships (dedupeLookupIds lookupIds) := by
  rw [CompanyMembershipPool.resolved]
  cases hskh : pool.namespaceOf s key with
  | none => rfl
  | some skh =>
    have hvisible : s.visible key = ∅ := by
      cases hmanifest : s.manifests key with
      | none => simp [Proxy.visible, hmanifest]
      | some manifest =>
        simpa [CompanyMembershipPool.scope, hskh, hmanifest, Proxy.visible] using h
    simp only [hvisible, restrict_empty, fetchVisible_keys]

theorem namespaceOf_of_scope {seen : Option (Finset String)}
    (h : CompanyMembershipPool.scope (pool.namespaceOf s key) seen = some skh) :
    pool.namespaceOf s key = some skh := by
  unfold CompanyMembershipPool.scope at h
  split at h
  · rename_i c v hc
    split_ifs at h
    rw [hc]
    exact h
  · exact absurd h (by simp)

/-! ## The scope of a call -/

/-- `I` is kept by what the others may do, and fixes the key's scope as it
is in `base`. -/
structure Watched (pool : CompanyMembershipPool) (key : String) (base : Proxy)
    (I : Proxy → Prop) : Prop where
  moves : ∀ u v, I u → Bystander pool key u v → I v
  scope : ∀ u, I u → SameScope key base u

/-- The runs of a lookup beside others that leave the key's view alone. -/
abbrev beside (pool : CompanyMembershipPool) (key : String) :
    Handler LookupCmd LookupCmd.Reply Proxy :=
  lookups.amid (Bystander pool key)

section Scope

variable {base : Proxy} {I : Proxy → Prop} (hI : Watched pool key base I)
include hI

theorem wp_namespaceForKey {Q : Option String → Proxy → Prop} (h : I t)
    (hQ : ∀ u, I u → Q (pool.namespaceOf base key) u) :
    Wp (beside pool key) (pool.namespaceForKey key) Q (fun _ => True) t := by
  refine Wp.readsAmid (fun mid hmid => hI.moves t mid h hmid) ?_
  intro mid r u hmid hstep
  obtain ⟨rfl, rfl⟩ := hstep
  refine .pure trivial ?_
  rw [(hI.scope u hmid).companyId]
  exact hQ u hmid

theorem wp_visibleLists {Q : Option (Finset String) → Proxy → Prop} (h : I t)
    (hQ : ∀ u, I u → Q ((base.manifests key).map IdListManifest.names) u) :
    Wp (beside pool key) (CompanyMembershipPool.visibleLists key) Q (fun _ => True) t := by
  refine Wp.readsAmid (fun mid hmid => hI.moves t mid h hmid) ?_
  intro mid r u hmid hstep
  obtain ⟨rfl, rfl⟩ := hstep
  refine .pure trivial ?_
  rw [(hI.scope u hmid).manifest]
  exact hQ u hmid

theorem wp_visibleNow {Q : Finset String → Proxy → Prop}
    (hskh : pool.namespaceOf base key = some skh) (h : I t)
    (hQ : ∀ u, I u → Q (base.visible key) u) :
    Wp (beside pool key) (pool.visibleNow key skh) Q (fun _ => True) t := by
  refine Wp.bind (wp_namespaceForKey hI h fun u hu => ?_)
  rw [hskh, if_pos rfl]
  exact Wp.bind (wp_visibleLists hI hu fun v hv => .pure trivial (hQ v hv))

end Scope

/-! ## Reading through the tokens -/

/-- The key's scope and the tokens of its lists are as in `base`. -/
structure TokenView (key skh : String) (base t : Proxy) : Prop where
  scope : SameScope key base t
  tokens : SameTokens skh (base.visible key) base t

theorem TokenView.watched {base : Proxy} (hskh : pool.namespaceOf base key = some skh) :
    Watched pool key base (TokenView key skh base) where
  moves u v h hmove := by
    have htokens := hmove.agree.tokens skh (by rw [h.scope.namespaceOf, hskh])
    rw [h.scope.visible] at htokens
    exact ⟨h.scope.trans hmove.agree.scope, h.tokens.trans htokens⟩
  scope _ h := h.scope

/-- The same, with the company's fetcher initialized. -/
structure CachedView (key skh : String) (base t : Proxy) : Prop extends TokenView key skh base t where
  cached : t.fetchers skh ≠ none

theorem CachedView.watched {base : Proxy} (hskh : pool.namespaceOf base key = some skh) :
    Watched pool key base (CachedView key skh base) where
  moves u v h hmove :=
    ⟨(TokenView.watched hskh).moves u v h.toTokenView hmove, hmove.fetchers skh h.cached⟩
  scope _ h := h.scope

theorem fillCell_of_cached {snapshot : DictSnapshot} (h : t.fetchers skh ≠ none) :
    t.fillCell skh snapshot = t := by
  obtain ⟨cached, hcached⟩ := Option.ne_none_iff_exists'.1 h
  have hupdate : Function.update t.fetchers skh (some cached) = t.fetchers := by
    rw [← hcached, Function.update_eq_self]
  simp [Proxy.fillCell, hcached, hupdate]

/-- The cell is filled with the dictionary read at an earlier moment `u`.
Either it was filled in between, or that dictionary was in use at `u`. -/
theorem SameTokens.fillCell {base u v : Proxy} (hu : SameTokens skh names base u)
    (hv : SameTokens skh names base v) (hmono : u.fetchers skh ≠ none → v.fetchers skh ≠ none) :
    SameTokens skh names base (v.fillCell skh (u.db.dict skh).snapshot) := by
  by_cases hcell : v.fetchers skh = none
  · have hcell' : u.fetchers skh = none := not_imp_not.1 hmono hcell
    have hdict : (v.fillCell skh (u.db.dict skh).snapshot).dictionary skh = u.dictionary skh := by
      simp [Proxy.dictionary, Proxy.fillCell, hcell, hcell']
    refine ⟨fun list hlist token => ?_, hv.member⟩
    rw [hdict]
    exact hu.name list hlist token
  · rw [fillCell_of_cached hcell]
    exact hv

theorem fetchers_fillCell (snapshot : DictSnapshot) :
    (t.fillCell skh snapshot).fetchers skh ≠ none := by
  cases hcell : t.fetchers skh <;> simp [Proxy.fillCell, hcell]

theorem wp_getOrTryInit_reverse {base : Proxy} (hmode : pool.enableReverseIndex = true)
    (hskh : pool.namespaceOf base key = some skh) (h : TokenView key skh base t) :
    Wp (beside pool key) (pool.getOrTryInit skh) (fun _ u => CachedView key skh base u)
      (fun _ => True) t := by
  have hwatch : Watched pool key base (TokenView key skh base) := TokenView.watched hskh
  refine Wp.readsAmid (fun mid hmid => hwatch.moves t mid h hmid) ?_
  intro mid r u hmid hstep
  obtain ⟨rfl, rfl⟩ := hstep
  refine .when ?_ (fun _ => trivial) ?_
  · intro _
    simp only [RedisIdListMembershipFetcher.firstDictionary, CompanyMembershipPool.fetcher, hmode,
      if_true]
    refine Wp.readsAmid (fun v hv => hwatch.moves u v hmid hv) ?_
    intro v r v' hv hstep
    obtain ⟨rfl, rfl⟩ := hstep
    refine Wp.cmd trivial ?_
    rintro - w ⟨w', hmove, rfl⟩
    have hw := hwatch.moves v' w' hv hmove
    have htokens := hv.tokens.fillCell hw.tokens (hmove.fetchers skh)
    exact ⟨trivial, ⟨⟨⟨hw.scope.companyId, hw.scope.manifest⟩, htokens⟩, fetchers_fillCell _⟩⟩
  · intro hcell
    exact ⟨hmid, by simpa [Option.isSome_iff_ne_none] using hcell⟩

/-- The tokens read for an id are those of `base`, as far as they name a
visible list. -/
def TokensOf (skh : String) (names : Finset String) (base : Proxy)
    (entry : String × Finset Nat) : Prop :=
  ∀ list ∈ names, ∀ token, base.dictionary skh token = some list →
    (token ∈ entry.2 ↔ token ∈ base.db.member (skh, entry.1))

theorem wp_readTokens {base : Proxy} (hskh : pool.namespaceOf base key = some skh)
    (h : CachedView key skh base t) :
    Wp (beside pool key) ((pool.fetcher skh).readTokens lookupIds)
      (fun entries u => CachedView key skh base u ∧ entries.map Prod.fst = lookupIds ∧
        ∀ entry ∈ entries, TokensOf skh (base.visible key) base entry) (fun _ => True) t := by
  refine Wp.fold (fun _ _ _ _ => trivial) (I := fun done entries u => CachedView key skh base u ∧
    entries.map Prod.fst = done ∧ ∀ entry ∈ entries, TokensOf skh (base.visible key) base entry)
    lookupIds [] [] t ?_ ⟨h, rfl, by simp⟩ ?_
  · intro done entries lookupId _ u hu
    obtain ⟨hview, hkeys, hentries⟩ := hu
    refine Wp.readsAmid (fun mid hmid => (CachedView.watched hskh).moves u mid hview hmid) ?_
    intro mid r v hmid hstep
    obtain ⟨rfl, rfl⟩ := hstep
    refine .pure trivial ⟨hmid, by simp [hkeys], ?_⟩
    intro entry hentry
    rcases List.mem_append.1 hentry with hold | hnew
    · exact hentries entry hold
    · obtain rfl := List.mem_singleton.1 hnew
      intro list hlist token hname
      exact hmid.tokens.member list hlist token hname lookupId
  · intro entries u hu
    exact hu

/-- Names found through tokens that agree, in a dictionary that agrees. -/
theorem inter_names_eq {base : Proxy} {entry : String × Finset Nat}
    (h : TokenView key skh base t) (hentry : TokensOf skh (base.visible key) base entry) :
    (entry.2.biUnion fun token => (t.dictionary skh token).toFinset) ∩ base.visible key =
      ((base.db.member (skh, entry.1)).biUnion fun token =>
        (base.dictionary skh token).toFinset) ∩ base.visible key := by
  ext list
  simp only [Finset.mem_inter, Finset.mem_biUnion, Option.mem_toFinset, Option.mem_def]
  constructor
  · rintro ⟨⟨token, htoken, hname⟩, hlist⟩
    have hname := (h.tokens.name list hlist token).1 hname
    exact ⟨⟨token, (hentry list hlist token hname).1 htoken, hname⟩, hlist⟩
  · rintro ⟨⟨token, htoken, hname⟩, hlist⟩
    exact ⟨⟨token, (hentry list hlist token hname).2 htoken,
      (h.tokens.name list hlist token).2 hname⟩, hlist⟩

theorem wp_fetchReads {base : Proxy} (hmode : pool.enableReverseIndex = true)
    (hskh : pool.namespaceOf base key = some skh) (h : CachedView key skh base t) :
    Wp (beside pool key) ((pool.fetcher skh).fetchReads lookupIds)
      (fun r u => TokenView key skh base u ∧ r.restrict (base.visible key) =
        ((pool.fetcher skh).fetch base.db (base.dictionary skh) lookupIds).restrict
          (base.visible key)) (fun _ => True) t := by
  simp only [RedisIdListMembershipFetcher.fetchReads, RedisIdListMembershipFetcher.fetch,
    CompanyMembershipPool.fetcher, hmode, Bool.not_true, Bool.false_eq_true, if_false]
  refine .ite ?_ ?_
  · intro hempty
    exact .pure trivial ⟨h.toTokenView, by rw [if_pos hempty]⟩
  · intro hne
    refine Wp.seq (wp_readTokens hskh h) ?_
    rintro entries u ⟨hview, hkeys, hentries⟩
    refine Wp.readsAmid (fun mid hmid => (CachedView.watched hskh).moves u mid hview hmid) ?_
    intro mid r v hmid hstep
    obtain ⟨rfl, rfl⟩ := hstep
    refine .pure trivial ⟨hmid.toTokenView, ?_⟩
    have hdict : (v.fetchers skh).getD (fun _ => none) = v.dictionary skh := by
      obtain ⟨cached, hcached⟩ := Option.ne_none_iff_exists'.1 hmid.cached
      simp [Proxy.dictionary, hcached]
    rw [if_neg hne, hdict, ← hkeys]
    simp only [ResolvedMemberships.restrict, List.map_map]
    refine List.map_congr_left fun entry hentry => ?_
    exact congrArg (Prod.mk entry.1) (inter_names_eq hmid.toTokenView (hentries entry hentry))

/-! ## Reading the forward sets -/

/-- The key's scope and the forward sets of its lists are as in `base`. -/
structure ForwardView (key skh : String) (base t : Proxy) : Prop where
  scope : SameScope key base t
  forward : SameForward skh (base.visible key) base t

theorem ForwardView.watched {base : Proxy} (hskh : pool.namespaceOf base key = some skh) :
    Watched pool key base (ForwardView key skh base) where
  moves u v h hmove := by
    have hforward := hmove.agree.forward skh (by rw [h.scope.namespaceOf, hskh])
    rw [h.scope.visible] at hforward
    exact ⟨h.scope.trans hmove.agree.scope, h.forward.trans hforward⟩
  scope _ h := h.scope

theorem wp_getOrTryInit_forward {base : Proxy} (hmode : pool.enableReverseIndex = false)
    (hskh : pool.namespaceOf base key = some skh) (h : ForwardView key skh base t) :
    Wp (beside pool key) (pool.getOrTryInit skh) (fun _ u => ForwardView key skh base u)
      (fun _ => True) t := by
  have hwatch : Watched pool key base (ForwardView key skh base) := ForwardView.watched hskh
  refine Wp.readsAmid (fun mid hmid => hwatch.moves t mid h hmid) ?_
  intro mid r u hmid hstep
  obtain ⟨rfl, rfl⟩ := hstep
  refine .when ?_ (fun _ => trivial) (fun _ => hmid)
  intro _
  simp only [RedisIdListMembershipFetcher.firstDictionary, CompanyMembershipPool.fetcher, hmode,
    Bool.false_eq_true, if_false]
  refine Wp.cmd trivial ?_
  rintro - w ⟨w', hmove, rfl⟩
  have hw := hwatch.moves u w' hmid hmove
  exact ⟨trivial, ⟨⟨hw.scope.companyId, hw.scope.manifest⟩, ⟨hw.forward.state, hw.forward.fwd⟩⟩⟩

/-- The lists with a version to read, in `db`. -/
def queries (db : Db) (skh : String) (lists : List String) : List (String × String) :=
  lists.filterMap fun list =>
    (RedisIdListMembershipFetcher.readVersion (db.state ⟨skh, list⟩)).map (list, ·)

theorem mem_queries {db : Db} {lists : List String} {query : String × String} :
    query ∈ queries db skh lists ↔ query.1 ∈ lists ∧
      RedisIdListMembershipFetcher.readVersion (db.state ⟨skh, query.1⟩) = some query.2 := by
  obtain ⟨list, ver⟩ := query
  simp only [queries, List.mem_filterMap, Option.map_eq_some_iff, Prod.mk.injEq]
  constructor
  · rintro ⟨l, hl, v, hv, rfl, rfl⟩
    exact ⟨hl, hv⟩
  · rintro ⟨hl, hv⟩
    exact ⟨list, hl, ver, hv, rfl, rfl⟩

theorem wp_readVersions {base : Proxy} {lists : List String}
    (hskh : pool.namespaceOf base key = some skh) (hlists : ∀ list ∈ lists, list ∈ base.visible key)
    (h : ForwardView key skh base t) :
    Wp (beside pool key) ((pool.fetcher skh).readVersions lists)
      (fun found u => ForwardView key skh base u ∧ found = queries base.db skh lists)
      (fun _ => True) t := by
  refine Wp.fold (fun _ _ _ _ => trivial) (I := fun done found u => ForwardView key skh base u ∧
    found = queries base.db skh done) lists [] [] t ?_ ⟨h, rfl⟩ ?_
  · intro done found list hlist u hu
    obtain ⟨hview, rfl⟩ := hu
    refine Wp.readsAmid (fun mid hmid => (ForwardView.watched hskh).moves u mid hview hmid) ?_
    intro mid r v hmid hstep
    obtain ⟨rfl, rfl⟩ := hstep
    have hstate := hmid.forward.state list (hlists list hlist)
    have hversion : RedisIdListMembershipFetcher.readVersion
        { version := (v.db.state ⟨skh, list⟩).version
          loadingVersion := (v.db.state ⟨skh, list⟩).loadingVersion } =
        RedisIdListMembershipFetcher.readVersion (base.db.state ⟨skh, list⟩) := by
      rw [hstate]
      rfl
    simp only [CompanyMembershipPool.fetcher, hversion]
    cases hread : RedisIdListMembershipFetcher.readVersion (base.db.state ⟨skh, list⟩) with
    | none => exact .pure trivial ⟨hmid, by simp [queries, hread]⟩
    | some ver => exact .pure trivial ⟨hmid, by simp [queries, hread]⟩
  · intro found u hu
    exact hu

/-- The memberships after the replies of `done`. -/
def replied (db : Db) (skh : String) (lookupIds : List String) (done : List (String × String)) :
    ResolvedMemberships :=
  lookupIds.map fun lookupId => (lookupId, ((done.filter fun query =>
    lookupId ∈ (db.fwd ⟨skh, query.1⟩ query.2).members).map Prod.fst).toFinset)

theorem replied_append (db : Db) (done : List (String × String)) (query : String × String) :
    replied db skh lookupIds (done ++ [query]) =
      RedisIdListMembershipFetcher.addReply query.1 (replied db skh lookupIds done)
        (lookupIds.map fun lookupId => decide (lookupId ∈ (db.fwd ⟨skh, query.1⟩ query.2).members)) := by
  simp only [replied, RedisIdListMembershipFetcher.addReply, List.zipWith_map, List.zipWith_self]
  refine List.map_congr_left fun lookupId _ => ?_
  by_cases hmem : lookupId ∈ (db.fwd ⟨skh, query.1⟩ query.2).members
  · simp [hmem, Finset.union_comm]
  · simp [hmem]

/-- All replies together are the pure read. -/
theorem replied_queries {db : Db} {lists : List String} {f : RedisIdListMembershipFetcher}
    (hlists : lists.toFinset = names) :
    replied db f.skh lookupIds (queries db f.skh lists) =
      lookupIds.map fun lookupId =>
        (lookupId, names.filter fun list => f.isForwardMember db list lookupId = true) := by
  refine List.map_congr_left fun lookupId _ => congrArg (Prod.mk lookupId) ?_
  ext list
  simp only [List.mem_toFinset, List.mem_map, List.mem_filter, decide_eq_true_eq, Finset.mem_filter,
    RedisIdListMembershipFetcher.isForwardMember, ← hlists]
  constructor
  · rintro ⟨query, ⟨hquery, hmem⟩, rfl⟩
    obtain ⟨hlist, hread⟩ := mem_queries.1 hquery
    simp [hlist, hread, hmem]
  · rintro ⟨hlist, hmem⟩
    cases hread : RedisIdListMembershipFetcher.readVersion (db.state ⟨f.skh, list⟩) with
    | none => simp [hread] at hmem
    | some ver =>
      simp only [hread, decide_eq_true_eq] at hmem
      exact ⟨(list, ver), ⟨mem_queries.2 ⟨hlist, hread⟩, hmem⟩, rfl⟩

theorem wp_fetchForwardReads {base : Proxy} (hskh : pool.namespaceOf base key = some skh)
    (h : ForwardView key skh base t) :
    Wp (beside pool key) ((pool.fetcher skh).fetchForwardReads lookupIds (base.visible key))
      (fun r u => ForwardView key skh base u ∧
        r = (pool.fetcher skh).fetchForward base.db lookupIds (base.visible key))
      (fun _ => True) t := by
  have hwatch : Watched pool key base (ForwardView key skh base) := ForwardView.watched hskh
  unfold RedisIdListMembershipFetcher.fetchForwardReads RedisIdListMembershipFetcher.fetchForward
  refine .ite ?_ ?_
  · intro hempty
    exact .pure trivial ⟨h, by rw [if_pos hempty]⟩
  · intro hne
    refine Wp.readsAmid (fun mid hmid => hwatch.moves t mid h hmid) ?_
    intro mid lists u hmid hstep
    obtain ⟨⟨-, hlists⟩, rfl⟩ := hstep
    refine Wp.seq (wp_readVersions hskh (fun list hlist => ?_) hmid) ?_
    · rw [← hlists]
      exact List.mem_toFinset.2 hlist
    rintro queried v ⟨hv, rfl⟩
    refine Wp.fold (fun _ _ _ _ => trivial) (I := fun done result w => ForwardView key skh base w ∧
      result = replied base.db skh lookupIds done) _ [] _ v ?_
      ⟨hv, by simp [replied, emptyMemberships]⟩ ?_
    · intro done result query hquery w hw
      obtain ⟨hview, rfl⟩ := hw
      refine Wp.readsAmid (fun mid hmid => hwatch.moves w mid hview hmid) ?_
      intro mid r x hmid hstep
      obtain ⟨rfl, rfl⟩ := hstep
      refine .pure trivial ⟨hmid, ?_⟩
      have hlist : query.1 ∈ base.visible key := by
        rw [← hlists]
        exact List.mem_toFinset.2 (mem_queries.1 hquery).1
      rw [replied_append]
      simp only [CompanyMembershipPool.fetcher, hmid.forward.fwd query.1 hlist]
    · rintro result w ⟨hw, rfl⟩
      rw [if_neg hne]
      exact ⟨hw, replied_queries (f := pool.fetcher skh) hlists⟩

/-! ## The whole call -/

/-- After its scope is known: both modes reach the answer of `base`. -/
theorem wp_fetchVisible {base : Proxy} (hskh : pool.namespaceOf base key = some skh)
    (h : Agree pool key base t) :
    Wp (beside pool key) (do
      pool.getOrTryInit skh
      let visible ← CompanyMembershipPool.visibleLists key
      let memberships ← (pool.fetcher skh).fetchVisibleReads lookupIds (visible.getD ∅)
      let visible ← pool.visibleNow key skh
      pure (memberships.restrict visible)) (fun r _ => r = pool.resolved base key lookupIds)
      (fun _ => True) t := by
  simp only [CompanyMembershipPool.resolved, hskh]
  cases hmode : pool.enableReverseIndex with
  | true =>
    have hview : TokenView key skh base t := ⟨h.scope, h.tokens skh hskh⟩
    refine Wp.seq (wp_getOrTryInit_reverse hmode hskh hview) ?_
    intro _ u hu
    refine Wp.bind (wp_visibleLists (CachedView.watched hskh) hu fun v hv => ?_)
    have hf : (pool.fetcher skh).enableReverseIndex = true := hmode
    simp only [RedisIdListMembershipFetcher.fetchVisibleReads,
      RedisIdListMembershipFetcher.fetchVisible, hf, if_true]
    refine Wp.seq (wp_fetchReads hmode hskh hv) ?_
    rintro r w ⟨hw, hr⟩
    refine Wp.bind (wp_visibleNow (TokenView.watched hskh) hskh hw fun x _ => .pure trivial ?_)
    exact hr
  | false =>
    have hview : ForwardView key skh base t := ⟨h.scope, h.forward skh hskh⟩
    refine Wp.seq (wp_getOrTryInit_forward hmode hskh hview) ?_
    intro _ u hu
    refine Wp.bind (wp_visibleLists (ForwardView.watched hskh) hu fun v hv => ?_)
    have hf : (pool.fetcher skh).enableReverseIndex = false := hmode
    simp only [RedisIdListMembershipFetcher.fetchVisibleReads,
      RedisIdListMembershipFetcher.fetchVisible, hf, Bool.false_eq_true, if_false]
    refine Wp.seq (wp_fetchForwardReads hskh hv) ?_
    rintro r w ⟨hw, rfl⟩
    exact Wp.bind (wp_visibleNow (ForwardView.watched hskh) hskh hw fun x _ => .pure trivial rfl)

/-- The answer of a call is the one of any state with the key's view. -/
theorem wp_resolve {base : Proxy} (h : Agree pool key base t) :
    Wp (beside pool key) (pool.resolve key lookupIds)
      (fun r _ => r = pool.resolved base key lookupIds) (fun _ => True) t := by
  have hagree : Watched pool key base (Agree pool key base) := by
    refine ⟨fun u v hu hmove => ⟨hu.scope.trans hmove.agree.scope, ?_, ?_⟩, fun u hu => hu.scope⟩
    · intro skh hskh
      have hu' : TokenView key skh base u := ⟨hu.scope, hu.tokens skh hskh⟩
      exact ((TokenView.watched hskh).moves u v hu' hmove).tokens
    · intro skh hskh
      have hu' : ForwardView key skh base u := ⟨hu.scope, hu.forward skh hskh⟩
      exact ((ForwardView.watched hskh).moves u v hu' hmove).forward
  refine Wp.bind (wp_namespaceForKey hagree h fun u hu => ?_)
  refine Wp.bind (wp_visibleLists hagree hu fun v hv => ?_)
  cases hscope : CompanyMembershipPool.scope (pool.namespaceOf base key)
      ((base.manifests key).map IdListManifest.names) with
  | none => exact .pure trivial (resolved_of_not_scope hscope).symm
  | some skh => exact wp_fetchVisible (namespaceOf_of_scope hscope) hv

/-- Every read has an answer. -/
theorem lookups_answer (s : Proxy) (c : LookupCmd) : ∃ r s', lookups.step s c r s' := by
  cases c with
  | iterate visible => exact ⟨visible.toList, s, ⟨visible.nodup_toList, visible.toList_toFinset⟩, rfl⟩
  | fillCell skh snapshot => exact ⟨(), s.fillCell skh snapshot, rfl⟩
  | companyId key => exact ⟨_, s, rfl, rfl⟩
  | manifest key => exact ⟨_, s, rfl, rfl⟩
  | initialized skh => exact ⟨_, s, rfl, rfl⟩
  | loadDictionary skh => exact ⟨_, s, rfl, rfl⟩
  | dictCache skh => exact ⟨_, s, rfl, rfl⟩
  | smembers skh lookupId => exact ⟨_, s, rfl, rfl⟩
  | hmgetVersions id => exact ⟨_, s, rfl, rfl⟩
  | smismember id ver lookupIds => exact ⟨_, s, rfl, rfl⟩

theorem beside_answers (s : Proxy) (c : LookupCmd) : ∃ r s', (beside pool key).step s c r s' := by
  obtain ⟨r, s', hstep⟩ := lookups_answer s c
  exact ⟨r, s', s, ⟨.refl, fun _ h => h⟩, hstep⟩

/-! ## What is returned is visible -/

/-- A command keeps `True`, whatever the others do. -/
theorem wp_anything {α : Type} {env : Proxy → Proxy → Prop} (p : Lookup α) :
    Wp (lookups.amid env) p (fun _ _ => True) (fun _ => True) t :=
  fun _ _ _ => ⟨fun _ _ => trivial, fun _ => trivial⟩

theorem wp_visibleNow_subset {env : Proxy → Proxy → Prop} :
    Wp (lookups.amid env) (pool.visibleNow key skh) (fun names u => names ⊆ u.visible key)
      (fun _ => True) t := by
  refine Wp.seq (wp_anything _) ?_
  intro current u _
  refine .ite ?_ ?_
  · intro _
    refine Wp.bind (Wp.readsAmid (fun _ _ => trivial) (I := fun _ => True) ?_)
    intro mid r v _ hstep
    obtain ⟨rfl, rfl⟩ := hstep
    exact .pure trivial (.pure trivial (Finset.Subset.refl _))
  · intro _
    exact .pure trivial (Finset.empty_subset _)

theorem wp_resolve_visible {env : Proxy → Proxy → Prop} :
    Wp (lookups.amid env) (pool.resolve key lookupIds)
      (fun r u => ∀ entry ∈ r, entry.2 ⊆ u.visible key) (fun _ => True) t := by
  refine Wp.seq (wp_anything _) ?_
  intro companyHash u _
  refine Wp.seq (wp_anything _) ?_
  intro visible v _
  split
  · refine .pure trivial ?_
    intro entry hentry
    obtain ⟨lookupId, _, rfl⟩ := List.mem_map.1 hentry
    exact Finset.empty_subset _
  · refine Wp.seq (wp_anything _) fun _ _ _ => ?_
    refine Wp.seq (wp_anything _) fun _ _ _ => ?_
    refine Wp.seq (wp_anything _) fun memberships _ _ => ?_
    refine Wp.seq wp_visibleNow_subset ?_
    intro names w hnames
    refine .pure trivial ?_
    intro entry hentry
    obtain ⟨found, _, rfl⟩ := List.mem_map.1 hentry
    exact Finset.inter_subset_right.trans hnames

/-- **Enrichment does not interfere.** From all states with the same view
of `key` a call returns, and returns the same, while others change
anything outside that view. And whatever changes during a call, the names
it returns are in the key's manifest at its last read, the filter's. -/
theorem resolve_noninterference (pool : CompanyMembershipPool) (key : String)
    (lookupIds : List String) :
    (∀ s, ∃ r, ∀ s', Agree pool key s s' →
      (∃ t, Exec (lookups.amid (Bystander pool key)) (pool.resolve key lookupIds) s' t (.ok r)) ∧
      ∀ t r', Exec (lookups.amid (Bystander pool key)) (pool.resolve key lookupIds) s' t (.ok r') →
        r' = r) ∧
    ∀ s t r, Exec (lookups.amid fun _ _ => True) (pool.resolve key lookupIds) s t (.ok r) →
      ∀ entry ∈ r, ∀ name ∈ entry.2, name ∈ t.visible key := by
  constructor
  · intro s
    refine ⟨pool.resolved s key lookupIds, fun s' hagree => ?_⟩
    have hr : ∀ t r', Exec (beside pool key) (pool.resolve key lookupIds) s' t (.ok r') →
        r' = pool.resolved s key lookupIds := fun t r' he => (wp_resolve hagree).ok he
    obtain ⟨t, r, he⟩ := Exec.exists_ok beside_answers (pool.resolve key lookupIds) s'
    obtain rfl := hr t r he
    exact ⟨⟨t, he⟩, hr⟩
  · intro s t r he entry hentry name hname
    exact wp_resolve_visible.ok he entry hentry hname

/-! Two keys of one company: `k` sees `l`, and the member `u` is also in
`h`, which only the other key sees. -/

def hiddenNames (hidden : Option String) (token : Nat) : Option String :=
  if token = 1 then some "l" else if token = 2 then hidden else none

def sharedCompany (tokens : Finset Nat) (hidden : Option String) : Proxy where
  companyId := fun _ => some "c"
  manifests := fun key => if key = "k" then some [("l", ⟨"F", 1, "u", 1⟩)] else none
  db := {
    dict := fun _ => { name := hiddenNames hidden }
    member := fun _ => tokens }

theorem sharedCompany_agree :
    Agree ⟨true, fun _ => "n"⟩ "k" (sharedCompany {1, 2} (some "h")) (sharedCompany {1} none) where
  scope := ⟨rfl, rfl⟩
  tokens skh _ := by
    have hvisible : (sharedCompany {1, 2} (some "h")).visible "k" = {"l"} := by decide
    rw [hvisible]
    constructor
    · intro list hlist token
      obtain rfl := Finset.mem_singleton.1 hlist
      simp only [Proxy.dictionary, sharedCompany, Option.getD_none, Dict.snapshot, hiddenNames]
      split_ifs <;> simp
    · intro list hlist token hname lookupId
      obtain rfl := Finset.mem_singleton.1 hlist
      simp only [Proxy.dictionary, sharedCompany, Option.getD_none, Dict.snapshot,
        hiddenNames] at hname
      split_ifs at hname with h₁
      · simp [sharedCompany, h₁]
      · simp at hname
  forward _ _ := ⟨fun _ _ => rfl, fun _ _ _ => rfl⟩

theorem resolve_noninterference_hidden :
    ∃ t t', Exec (lookups.amid (Bystander ⟨true, fun _ => "n"⟩ "k"))
        (CompanyMembershipPool.resolve ⟨true, fun _ => "n"⟩ "k" ["u"])
        (sharedCompany {1, 2} (some "h")) t (.ok [("u", {"l"})]) ∧
      Exec (lookups.amid (Bystander ⟨true, fun _ => "n"⟩ "k"))
        (CompanyMembershipPool.resolve ⟨true, fun _ => "n"⟩ "k" ["u"])
        (sharedCompany {1} none) t' (.ok [("u", {"l"})]) := by
  obtain ⟨r, hr⟩ := (resolve_noninterference ⟨true, fun _ => "n"⟩ "k" ["u"]).1
    (sharedCompany {1, 2} (some "h"))
  obtain ⟨t, he⟩ := (hr _ .refl).1
  obtain ⟨t', he'⟩ := (hr _ sharedCompany_agree).1
  have hresult : r = [("u", {"l"})] := ((wp_resolve .refl).ok he).trans (by decide)
  subst hresult
  exact ⟨t, t', he, he'⟩

end ForwardProxy.IdList
