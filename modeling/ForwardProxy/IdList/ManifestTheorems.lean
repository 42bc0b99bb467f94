/-
ForwardProxy.IdList.ManifestTheorems — the union of the manifests of a
company.

A `BTreeMap` of the source is an association list sorted by its keys, so
that an update acts on it as on a map (`lookup_upsert`). From there on
only lookups are used: no collision means that a namespace has one company
(`company_unique`), and a company whose union counts as complete has a
manifest for each of its keys, with no entry lost in the union
(`evidence_of_complete`).
-/
import ForwardProxy.IdList.Producer

namespace ForwardProxy.IdList

variable {α : Type}

/-! ## Sorted association lists -/

def KeySorted (l : List (String × α)) : Prop := l.Pairwise fun a b => a.1 < b.1

theorem lookup_cons_of_ne {l : List (String × α)} {k k' : String} {a : α} (h : k ≠ k') :
    ((k', a) :: l).lookup k = l.lookup k := by
  rw [List.lookup_cons, beq_false_of_ne h]

theorem mem_of_lookup {l : List (String × α)} {k : String} {a : α} (h : l.lookup k = some a) :
    (k, a) ∈ l := by
  obtain ⟨l₁, l₂, rfl, _⟩ := List.lookup_eq_some_iff.mp h
  simp

theorem lookup_none_of_lt {l : List (String × α)} {k : String} (h : ∀ e ∈ l, k < e.1) :
    l.lookup k = none := by
  refine List.lookup_eq_none_iff.mpr fun e he => ?_
  simpa using String.ne_of_lt (h e he)

theorem lookup_of_mem {l : List (String × α)} {k : String} {a : α} (hsorted : KeySorted l)
    (h : (k, a) ∈ l) : l.lookup k = some a := by
  induction l with
  | nil => simp at h
  | cons e l ih =>
    obtain ⟨hlt, hrest⟩ := List.pairwise_cons.mp hsorted
    rcases List.mem_cons.mp h with rfl | h
    · simp
    · have hne : k ≠ e.1 := (String.ne_of_lt (hlt _ h)).symm
      exact (lookup_cons_of_ne hne).trans (ih hrest h)

variable {key : String} {dflt : α} {f : α → α}

theorem key_of_mem_upsert : ∀ {l : List (String × α)} {e : String × α},
    e ∈ upsert key dflt f l → e.1 = key ∨ ∃ e' ∈ l, e'.1 = e.1 := by
  intro l
  induction l with
  | nil =>
    intro e h
    simp only [upsert, List.mem_singleton] at h
    simp [h]
  | cons e' l ih =>
    intro e h
    obtain ⟨k, a⟩ := e'
    unfold upsert at h
    split at h
    · rcases List.mem_cons.mp h with rfl | h
      · exact .inr ⟨(k, a), by simp, rfl⟩
      · exact .inr ⟨e, by simp [h], rfl⟩
    · split at h
      · rcases List.mem_cons.mp h with rfl | h
        · exact .inl rfl
        · exact .inr ⟨e, h, rfl⟩
      · rcases List.mem_cons.mp h with rfl | h
        · exact .inr ⟨(k, a), by simp, rfl⟩
        · rcases ih h with h | ⟨e', he', hk⟩
          · exact .inl h
          · exact .inr ⟨e', by simp [he'], hk⟩

theorem keySorted_upsert : ∀ {l : List (String × α)}, KeySorted l →
    KeySorted (upsert key dflt f l) := by
  intro l
  induction l with
  | nil =>
    intro _
    exact List.pairwise_singleton _ _
  | cons e l ih =>
    intro h
    obtain ⟨k, a⟩ := e
    obtain ⟨hlt, hrest⟩ := List.pairwise_cons.mp h
    unfold upsert
    split
    · exact List.pairwise_cons.mpr ⟨hlt, hrest⟩
    · split
      · rename_i hk
        refine List.pairwise_cons.mpr ⟨?_, h⟩
        intro e he
        rcases List.mem_cons.mp he with rfl | he
        · exact hk
        · exact String.lt_trans hk (hlt e he)
      · rename_i hne hk
        have hk : k < key := by
          by_contra hlt
          exact hne (String.le_antisymm (String.not_lt.mp hlt) (String.not_lt.mp hk))
        refine List.pairwise_cons.mpr ⟨?_, ih hrest⟩
        intro e he
        rcases key_of_mem_upsert he with he | ⟨e', he', hk'⟩
        · rw [he]
          exact hk
        · rw [← hk']
          exact hlt e' he'

/-- An update of one key. -/
theorem lookup_upsert {l : List (String × α)} (h : KeySorted l) (k : String) :
    (upsert key dflt f l).lookup k =
      if k = key then some (f ((l.lookup key).getD dflt)) else l.lookup k := by
  induction l with
  | nil =>
    unfold upsert
    by_cases hk : k = key
    · simp [hk]
    · rw [lookup_cons_of_ne hk, if_neg hk]
  | cons e l ih =>
    obtain ⟨k', a⟩ := e
    obtain ⟨hlt, hrest⟩ := List.pairwise_cons.mp h
    unfold upsert
    split
    · rename_i heq
      subst heq
      by_cases hk : k = key
      · simp [hk]
      · rw [lookup_cons_of_ne hk, lookup_cons_of_ne hk, if_neg hk]
    · rename_i hne
      rw [lookup_cons_of_ne hne]
      split
      · rename_i hless
        have hnone : l.lookup key = none :=
          lookup_none_of_lt fun e he => String.lt_trans hless (hlt e he)
        by_cases hk : k = key
        · simp [hk, hnone]
        · rw [lookup_cons_of_ne hk, if_neg hk]
      · by_cases hk : k = k'
        · subst hk
          simp [Ne.symm hne]
        · rw [lookup_cons_of_ne hk, lookup_cons_of_ne hk]
          exact ih hrest

/-! ## One company behind each namespace -/

theorem mem_insertId {x y : String} {l : List String} : y ∈ insertId x l ↔ y = x ∨ y ∈ l := by
  induction l with
  | nil => simp [insertId]
  | cons z l ih =>
    unfold insertId
    split
    · rename_i heq
      simp [heq]
    · split
      · simp
      · simp only [List.mem_cons, ih]
        tauto

namespace IdListNamespaces

variable {ns : IdListNamespaces}

/-- Every company seen so far is among the owners of its namespace. -/
structure Owned (ns : IdListNamespaces) (done : List String) (acc : List (String × List String)) :
    Prop where
  sorted : KeySorted acc
  owner : ∀ c ∈ done, ∃ ids, acc.lookup (ns.hashCompanyId c) = some ids ∧ c ∈ ids

theorem owned_step {done : List String} {acc : List (String × List String)} (h : Owned ns done acc)
    (c : String) :
    Owned ns (done ++ [c]) (upsert (ns.hashCompanyId c) [] (insertId c) acc) := by
  refine ⟨keySorted_upsert h.sorted, ?_⟩
  intro c' hc'
  rw [lookup_upsert h.sorted]
  have hcases : c' ∈ done ∨ c' = c := by simpa using hc'
  split
  · rename_i hhash
    refine ⟨_, rfl, mem_insertId.mpr ?_⟩
    rcases hcases with hc' | hc'
    · obtain ⟨ids, hids, hmem⟩ := h.owner c' hc'
      rw [hhash] at hids
      simp [hids, hmem]
    · exact .inl hc'
  · rename_i hhash
    rcases hcases with hc' | rfl
    · exact h.owner c' hc'
    · exact absurd rfl hhash

theorem owned_foldl (ns : IdListNamespaces) : ∀ (todo done : List String)
    (acc : List (String × List String)), Owned ns done acc →
      Owned ns (done ++ todo) (todo.foldl
        (fun acc c => upsert (ns.hashCompanyId c) [] (insertId c) acc) acc) := by
  intro todo
  induction todo with
  | nil =>
    intro done acc h
    simpa using h
  | cons c todo ih =>
    intro done acc h
    have hrest := ih _ _ (owned_step h c)
    rw [List.append_assoc] at hrest
    exact hrest

/-- Without a collision, companies with the same namespace are the same. -/
theorem company_unique (h : ns.collisions = []) {key key' company company' : String}
    (hkey : key ∈ ns.serverKeys) (hkey' : key' ∈ ns.serverKeys)
    (hcompany : ns.companyId key = some company) (hcompany' : ns.companyId key' = some company')
    (hhash : ns.hashCompanyId company = ns.hashCompanyId company') : company = company' := by
  have howned : Owned ns (ns.serverKeys.filterMap ns.companyId) ns.owners := by
    have hfold := owned_foldl ns (ns.serverKeys.filterMap ns.companyId) [] []
      ⟨List.Pairwise.nil, by simp⟩
    rw [List.nil_append] at hfold
    exact hfold
  obtain ⟨ids, hids, hmem⟩ := howned.owner company (List.mem_filterMap.mpr ⟨key, hkey, hcompany⟩)
  obtain ⟨ids', hids', hmem'⟩ :=
    howned.owner company' (List.mem_filterMap.mpr ⟨key', hkey', hcompany'⟩)
  rw [hhash, hids'] at hids
  obtain rfl := Option.some.inj hids
  have hone : ids'.length ≤ 1 := by
    by_contra hlen
    have hfound : (ns.hashCompanyId company', ids') ∈
        ns.owners.filter fun owner => 1 < owner.2.length := by
      simpa using ⟨mem_of_lookup hids', Nat.not_le.mp hlen⟩
    unfold collisions at h
    rw [List.map_eq_nil_iff.mp h] at hfound
    simp at hfound
  match ids', hone, hmem, hmem' with
  | [c], _, hmem, hmem' =>
    rw [List.mem_singleton.mp hmem, List.mem_singleton.mp hmem']

end IdListNamespaces

/-! ## The union of the manifests -/

/-- The names of a manifest. -/
def IdListManifest.Lists (manifest : IdListManifest) (name : String) : Prop :=
  (manifest.lookup name).isSome = true

theorem lists_cons {manifest : IdListManifest} {item : String × IdListMetadata} {name : String} :
    IdListManifest.Lists (item :: manifest) name ↔
      name = item.1 ∨ IdListManifest.Lists manifest name := by
  unfold IdListManifest.Lists
  simp [List.lookup_isSome_iff]

theorem lists_insertEntry {manifest : IdListManifest} {name name' : String} {entry : IdListMetadata} :
    IdListManifest.Lists (insertEntry name entry manifest) name' ↔
      name' = name ∨ IdListManifest.Lists manifest name' := by
  induction manifest with
  | nil => exact lists_cons
  | cons item manifest ih =>
    obtain ⟨n, e⟩ := item
    unfold insertEntry
    split
    · rename_i hn
      subst hn
      rw [lists_cons, lists_cons]
      tauto
    · rw [lists_cons, lists_cons, ih]
      tauto

theorem lists_mergeEntry {lists : IdListManifest} {item : String × IdListMetadata} {name : String} :
    IdListManifest.Lists (mergeEntry lists item) name ↔
      name = item.1 ∨ IdListManifest.Lists lists name := by
  unfold mergeEntry
  split
  · rename_i previous hprevious
    have hin : IdListManifest.Lists lists item.1 := by
      unfold IdListManifest.Lists
      simp [hprevious]
    split
    · exact lists_insertEntry
    · constructor
      · exact .inr
      · intro h
        rcases h with rfl | h
        · exact hin
        · exact h
  · exact lists_insertEntry

/-- The union has the names of both. -/
theorem lists_foldl_mergeEntry : ∀ (manifest lists : IdListManifest) (name : String),
    IdListManifest.Lists (manifest.foldl mergeEntry lists) name ↔
      IdListManifest.Lists manifest name ∨ IdListManifest.Lists lists name := by
  intro manifest
  induction manifest with
  | nil =>
    intro lists name
    simp [IdListManifest.Lists]
  | cons item manifest ih =>
    intro lists name
    rw [List.foldl_cons, ih, lists_mergeEntry, lists_cons]
    tauto

namespace IdListNamespaces

variable {ns : IdListNamespaces}

/-- The key has a manifest, and its names are in `company`, unless that is
known to be incomplete. -/
def Covers (ns : IdListNamespaces) (company : CompanyManifest) (key : String) : Prop :=
  company.incomplete = false → ∃ manifest, ns.manifests key = some manifest ∧
    ∀ name, IdListManifest.Lists manifest name → IdListManifest.Lists company.lists name

/-- What the loop over the keys has established after `done`. -/
structure Merged (ns : IdListNamespaces) (done : List String) (acc : Union) : Prop where
  sorted : KeySorted acc.1
  resolved : acc.2.2 = false → ∀ key ∈ done, ∃ company, ns.companyId key = some company
  owned : ∀ skh company, acc.1.lookup skh = some company →
    ∃ key ∈ done, ∃ c, ns.companyId key = some c ∧ ns.hashCompanyId c = skh
  covers : ∀ key ∈ done, ∀ c, ns.companyId key = some c →
    ∃ company, acc.1.lookup (ns.hashCompanyId c) = some company ∧ ns.Covers company key

/-- One update of a company by a key of it. -/
theorem merged_upsert {done : List String} {acc : Union} (h : Merged ns done acc) {key c : String}
    (hc : ns.companyId key = some c) {f : CompanyManifest → CompanyManifest} (n : Nat)
    (hnew : ∀ company, ns.Covers (f company) key)
    (hold : ∀ company key', ns.Covers company key' → ns.Covers (f company) key') :
    Merged ns (done ++ [key]) (upsert (ns.hashCompanyId c) {} f acc.1, n, acc.2.2) := by
  refine ⟨keySorted_upsert h.sorted, ?_, ?_, ?_⟩
  · intro hresolved key' hkey'
    rcases List.mem_append.mp hkey' with hkey' | hkey'
    · exact h.resolved hresolved key' hkey'
    · obtain rfl := List.mem_singleton.mp hkey'
      exact ⟨c, hc⟩
  · intro skh company hlookup
    rw [lookup_upsert h.sorted] at hlookup
    split at hlookup
    · rename_i hskh
      exact ⟨key, by simp, c, hc, hskh.symm⟩
    · obtain ⟨key', hkey', c', hc'⟩ := h.owned skh company hlookup
      exact ⟨key', by simp [hkey'], c', hc'⟩
  · intro key' hkey' c' hc'
    rw [lookup_upsert h.sorted]
    rcases List.mem_append.mp hkey' with hkey' | hkey'
    · obtain ⟨company, hlookup, hcovers⟩ := h.covers key' hkey' c' hc'
      split
      · rename_i hskh
        rw [hskh] at hlookup
        refine ⟨_, rfl, ?_⟩
        rw [hlookup]
        exact hold company key' hcovers
      · exact ⟨company, hlookup, hcovers⟩
    · obtain rfl := List.mem_singleton.mp hkey'
      rw [hc] at hc'
      obtain rfl := Option.some.inj hc'
      rw [if_pos rfl]
      exact ⟨_, rfl, hnew _⟩

theorem merged_step {done : List String} {acc : Union} (h : Merged ns done acc) (key : String) :
    Merged ns (done ++ [key]) (ns.mergeKey acc key) := by
  unfold mergeKey
  split
  · rename_i hnone
    refine ⟨h.sorted, by simp, ?_, ?_⟩
    · intro skh company hlookup
      obtain ⟨key', hkey', hc'⟩ := h.owned skh company hlookup
      exact ⟨key', by simp [hkey'], hc'⟩
    · intro key' hkey' c hc
      rcases List.mem_append.mp hkey' with hkey' | hkey'
      · exact h.covers key' hkey' c hc
      · obtain rfl := List.mem_singleton.mp hkey'
        simp [hnone] at hc
  · rename_i c hc
    split
    · -- A key without a manifest makes its company incomplete for good.
      refine merged_upsert h hc _ ?_ ?_
      · intro company hincomplete
        simp at hincomplete
      · intro company key' _ hincomplete
        simp at hincomplete
    · rename_i manifest hmanifest
      refine merged_upsert h hc _ ?_ ?_
      · intro company _
        refine ⟨manifest, hmanifest, fun name hname => ?_⟩
        exact (lists_foldl_mergeEntry _ _ _).mpr (.inl hname)
      · intro company key' hcovers hincomplete
        obtain ⟨manifest', hmanifest', hnames⟩ := hcovers hincomplete
        refine ⟨manifest', hmanifest', fun name hname => ?_⟩
        exact (lists_foldl_mergeEntry _ _ _).mpr (.inr (hnames name hname))

theorem merged_foldl (ns : IdListNamespaces) : ∀ (todo done : List String) (acc : Union),
    Merged ns done acc → Merged ns (done ++ todo) (todo.foldl ns.mergeKey acc) := by
  intro todo
  induction todo with
  | nil =>
    intro done acc h
    simpa using h
  | cons key todo ih =>
    intro done acc h
    have hrest := ih _ _ (merged_step h key)
    rw [List.append_assoc] at hrest
    exact hrest

theorem merged_serverKeys (ns : IdListNamespaces) :
    Merged ns ns.serverKeys (ns.serverKeys.foldl ns.mergeKey ([], 0, false)) := by
  have hfold := merged_foldl ns ns.serverKeys [] ([], 0, false)
    ⟨List.Pairwise.nil, by simp, by simp, by simp⟩
  rw [List.nil_append] at hfold
  exact hfold

/-- A namespace has one company in the union. -/
theorem lookup_companyManifests {companies : List (String × CompanyManifest)}
    {unavailable : Nat} (h : ns.companyManifests = .ok (companies, unavailable)) {skh : String}
    {company : CompanyManifest} (hmem : (skh, company) ∈ companies) :
    companies.lookup skh = some company := by
  unfold companyManifests at h
  split at h
  · simp at h
  simp only [Except.ok.injEq, Prod.mk.injEq] at h
  obtain ⟨rfl, _⟩ := h
  refine lookup_of_mem ?_ hmem
  exact (merged_serverKeys ns).sorted.map _ fun _ _ h => h

/-- What a complete company manifest is evidence of. -/
structure Complete (ns : IdListNamespaces) (skh : String) (lists : IdListManifest) : Prop where
  discovered : ∀ key ∈ ns.serverKeys, ∃ company, ns.companyId key = some company
  distinct : ∀ key ∈ ns.serverKeys, ∀ key' ∈ ns.serverKeys, ∀ c c',
    ns.companyId key = some c → ns.companyId key' = some c' →
      ns.hashCompanyId c = ns.hashCompanyId c' → c = c'
  owner : ∃ c, ns.hashCompanyId c = skh ∧ (∃ key ∈ ns.serverKeys, ns.companyId key = some c) ∧
    ∀ key ∈ ns.serverKeys, ns.companyId key = some c →
      ∃ manifest, ns.manifests key = some manifest ∧
        ∀ name, IdListManifest.Lists manifest name → IdListManifest.Lists lists name

/-- **A complete union rests on every manifest of its company**, and on the
company of every key. -/
theorem complete_of_companyManifests {companies : List (String × CompanyManifest)}
    {unavailable : Nat} (h : ns.companyManifests = .ok (companies, unavailable)) {skh : String}
    {company : CompanyManifest} (hmem : (skh, company) ∈ companies)
    (hcomplete : company.incomplete = false) : Complete ns skh company.lists := by
  unfold companyManifests at h
  split at h
  · simp at h
  rename_i hcollisions
  have hcollisions : ns.collisions = [] := not_not.mp hcollisions
  simp only [Except.ok.injEq, Prod.mk.injEq] at h
  obtain ⟨rfl, _⟩ := h
  obtain ⟨⟨skh', union⟩, hunion, heq⟩ := List.mem_map.mp hmem
  obtain ⟨rfl, rfl⟩ := Prod.mk.inj heq
  simp only [Bool.or_eq_false_iff] at hcomplete
  have hmerged := merged_serverKeys ns
  have hlookup := lookup_of_mem hmerged.sorted hunion
  obtain ⟨key, hkey, c, hc, hskh⟩ := hmerged.owned _ _ hlookup
  refine ⟨hmerged.resolved hcomplete.2, ?_, c, hskh, ⟨key, hkey, hc⟩, ?_⟩
  · intro k hk k' hk' a a' ha ha' hhash
    exact company_unique hcollisions hk hk' ha ha' hhash
  · intro k hk hkc
    obtain ⟨company', hlookup', hcovers⟩ := hmerged.covers k hk c hkc
    rw [hskh, hlookup] at hlookup'
    obtain rfl := Option.some.inj hlookup'
    exact hcovers hcomplete.1

/-- Two companies behind one namespace make the union fail. -/
theorem companyManifests_collision {key key' c c' : String} (hkey : key ∈ ns.serverKeys)
    (hkey' : key' ∈ ns.serverKeys) (hc : ns.companyId key = some c)
    (hc' : ns.companyId key' = some c') (hne : c ≠ c')
    (hhash : ns.hashCompanyId c = ns.hashCompanyId c') :
    ns.companyManifests = .error ns.collisions := by
  unfold companyManifests
  refine if_pos fun h => ?_
  exact hne (company_unique h hkey hkey' hc hc' hhash)

end IdListNamespaces

end ForwardProxy.IdList
