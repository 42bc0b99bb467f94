/-
ForwardProxy.IdList.UnionOrderTheorems — the union of the manifests of one
company, in every order of its keys.

For each list name the loop over the keys is a choice by pairwise
comparison (`chosen_eq_champion`): an entry of a later key takes the place
of the one in the union when it `replaces` it. The comparison is
asymmetric, but not transitive: entries of one file are ordered by size
first, entries of different files by creation time. So the choice depends
on the order, unless one entry replaces all others
(`chosen_perm_iff_decided`).
-/
import ForwardProxy.Order.PairwiseChoice
import ForwardProxy.IdList.ManifestTheorems

namespace ForwardProxy.IdList

open PairwiseChoice

/-! ## The comparison of two entries -/

theorem replaces_asymm (a b : IdListMetadata) (h : replaces a b = true) : replaces b a = false := by
  unfold replaces at h ⊢
  by_cases hfile : a.fileId = b.fileId
  · rw [if_pos hfile] at h
    rw [if_pos hfile.symm]
    simp only [Bool.or_eq_true, Bool.and_eq_true, decide_eq_true_eq] at h
    simp only [Bool.or_eq_false_iff, Bool.and_eq_false_imp, decide_eq_true_eq,
      decide_eq_false_iff_not]
    omega
  · rw [if_neg hfile] at h
    rw [if_neg fun h => hfile h.symm]
    simp only [Bool.or_eq_true, Bool.and_eq_true, decide_eq_true_eq] at h
    simp only [Bool.or_eq_false_iff, Bool.and_eq_false_imp, decide_eq_true_eq,
      decide_eq_false_iff_not]
    rcases h with h | ⟨h, hlt⟩
    · omega
    · exact ⟨by omega, fun _ hgt => String.lt_irrefl _ (String.lt_trans hlt hgt)⟩

/-! ## One manifest into the union -/

theorem lookup_insertEntry {manifest : IdListManifest} {name name' : String}
    {entry : IdListMetadata} :
    (insertEntry name entry manifest).lookup name' =
      if name' = name then some entry else manifest.lookup name' := by
  induction manifest with
  | nil =>
    unfold insertEntry
    by_cases h : name' = name
    · simp [h]
    · rw [lookup_cons_of_ne h, if_neg h]
  | cons item manifest ih =>
    obtain ⟨n, e⟩ := item
    unfold insertEntry
    split
    · rename_i hn
      subst hn
      by_cases h : name' = n
      · simp [h]
      · rw [lookup_cons_of_ne h, lookup_cons_of_ne h, if_neg h]
    · rename_i hn
      by_cases h : name' = n
      · subst h
        simp [hn]
      · rw [lookup_cons_of_ne h, lookup_cons_of_ne h]
        exact ih

theorem lookup_mergeEntry {lists : IdListManifest} {item : String × IdListMetadata} {name : String} :
    (mergeEntry lists item).lookup name =
      if name = item.1 then challenge replaces (lists.lookup name) item.2
      else lists.lookup name := by
  unfold mergeEntry
  by_cases hname : name = item.1
  · subst hname
    rw [if_pos rfl]
    split
    · rename_i previous hprevious
      rw [hprevious, challenge_some]
      split
      · rw [lookup_insertEntry, if_pos rfl]
      · exact hprevious
    · rename_i hnone
      rw [lookup_insertEntry, if_pos rfl, hnone]
      rfl
  · rw [if_neg hname]
    split
    · split
      · rw [lookup_insertEntry, if_neg hname]
      · rfl
    · rw [lookup_insertEntry, if_neg hname]

/-- A manifest of a key has one entry per name. -/
def IdListManifest.Distinct (manifest : IdListManifest) : Prop := (manifest.map Prod.fst).Nodup

theorem lookup_foldl_mergeEntry {name : String} : ∀ {manifest lists : IdListManifest},
    manifest.Distinct → (manifest.foldl mergeEntry lists).lookup name =
      (manifest.lookup name).elim (lists.lookup name) (challenge replaces (lists.lookup name)) := by
  intro manifest
  induction manifest with
  | nil =>
    intro lists _
    rfl
  | cons item manifest ih =>
    intro lists hdistinct
    obtain ⟨hnotin, hrest⟩ := List.nodup_cons.mp hdistinct
    rw [List.foldl_cons, ih hrest, lookup_mergeEntry]
    by_cases hname : name = item.1
    · subst hname
      have hnone : manifest.lookup item.1 = none := by
        refine List.lookup_eq_none_iff.mpr fun e he => ?_
        simpa using fun heq : item.1 = e.1 => hnotin (List.mem_map.mpr ⟨e, he, heq.symm⟩)
      have hfound : List.lookup item.1 (item :: manifest) = some item.2 := by
        rw [List.lookup_cons, beq_self_eq_true]
      rw [if_pos rfl, hnone, hfound]
      rfl
    · rw [if_neg hname, lookup_cons_of_ne hname]

namespace IdListNamespaces

variable {ns : IdListNamespaces}

/-! ## The choice for one list -/

/-- The entry of the union for a list of a company. -/
def chosen (ns : IdListNamespaces) (companyId name : String) : Option IdListMetadata :=
  match ns.companyManifests with
  | .error _ => none
  | .ok (companies, _) =>
    (companies.lookup (ns.hashCompanyId companyId)).bind fun company => company.lists.lookup name

/-- The entry of one key. -/
def entryOf (ns : IdListNamespaces) (name key : String) : Option IdListMetadata :=
  (ns.manifests key).bind fun manifest => manifest.lookup name

/-- The entries of all keys, in the order of the visit. -/
def entries (ns : IdListNamespaces) (name : String) : List IdListMetadata :=
  ns.serverKeys.filterMap (ns.entryOf name)

/-- What a namespace configuration of one company satisfies: a set of keys
that all belong to `company`, each with a manifest or none. -/
structure OneCompany (ns : IdListNamespaces) (company : String) : Prop where
  nodup : ns.serverKeys.Nodup
  companyId : ∀ key ∈ ns.serverKeys, ns.companyId key = some company
  distinct : ∀ key manifest, ns.manifests key = some manifest → manifest.Distinct

/-- The same keys in another order. -/
def visiting (ns : IdListNamespaces) (keys : List String) : IdListNamespaces :=
  { ns with serverKeys := keys }

theorem OneCompany.visiting {company : String} {keys : List String} (h : ns.OneCompany company)
    (hperm : keys.Perm ns.serverKeys) : (ns.visiting keys).OneCompany company :=
  ⟨hperm.nodup_iff.mpr h.nodup, fun key hkey => h.companyId key (hperm.mem_iff.mp hkey),
    h.distinct⟩

/-- Some entry of the list replaces every other one, or there is none. -/
def Decided (ns : IdListNamespaces) (name : String) : Prop :=
  ns.entries name = [] ∨ ∃ w, Undefeated replaces (ns.entries name) w

/-- The entry of a list in a union under construction. -/
def entryIn (ns : IdListNamespaces) (companyId name : String) (acc : Union) :
    Option IdListMetadata :=
  (acc.1.lookup (ns.hashCompanyId companyId)).bind fun company => company.lists.lookup name

theorem entryIn_upsert {company name : String} {acc : Union} {flag : Nat × Bool}
    {f : CompanyManifest → CompanyManifest} (hsorted : KeySorted acc.1) :
    ns.entryIn company name (upsert (ns.hashCompanyId company) {} f acc.1, flag) =
      (f ((acc.1.lookup (ns.hashCompanyId company)).getD {})).lists.lookup name := by
  unfold entryIn
  rw [lookup_upsert hsorted, if_pos rfl]
  rfl

theorem entryIn_eq_getD {company name : String} {acc : Union} :
    ns.entryIn company name acc =
      ((acc.1.lookup (ns.hashCompanyId company)).getD {}).lists.lookup name := by
  unfold entryIn
  cases acc.1.lookup (ns.hashCompanyId company) with
  | none => rfl
  | some company => rfl

/-- One key of the loop: its entry challenges the one in the union. -/
theorem entryIn_mergeKey {company key : String} (name : String) {acc : Union}
    (hsorted : KeySorted acc.1) (hcompany : ns.companyId key = some company)
    (hdistinct : ∀ manifest, ns.manifests key = some manifest → manifest.Distinct) :
    KeySorted (ns.mergeKey acc key).1 ∧
      ns.entryIn company name (ns.mergeKey acc key) =
        (ns.entryOf name key).elim (ns.entryIn company name acc)
          (challenge replaces (ns.entryIn company name acc)) := by
  unfold mergeKey entryOf
  rw [hcompany]
  cases hmanifest : ns.manifests key with
  | none =>
    refine ⟨keySorted_upsert hsorted, ?_⟩
    exact (entryIn_upsert hsorted).trans entryIn_eq_getD.symm
  | some manifest =>
    refine ⟨keySorted_upsert hsorted, ?_⟩
    refine (entryIn_upsert hsorted).trans ?_
    rw [entryIn_eq_getD]
    exact lookup_foldl_mergeEntry (hdistinct manifest hmanifest)

theorem entryIn_foldl {company : String} (name : String) : ∀ {keys : List String} {acc : Union},
    KeySorted acc.1 → (∀ key ∈ keys, ns.companyId key = some company) →
    (∀ key manifest, ns.manifests key = some manifest → manifest.Distinct) →
      ns.entryIn company name (keys.foldl ns.mergeKey acc) =
        (keys.filterMap (ns.entryOf name)).foldl (challenge replaces)
          (ns.entryIn company name acc) := by
  intro keys
  induction keys with
  | nil =>
    intro acc _ _ _
    rfl
  | cons key keys ih =>
    intro acc hsorted hcompany hdistinct
    obtain ⟨hsorted', hentry⟩ :=
      entryIn_mergeKey name hsorted (hcompany key (by simp)) (hdistinct key)
    rw [List.foldl_cons, ih hsorted' (fun k hk => hcompany k (by simp [hk])) hdistinct, hentry]
    cases hkey : ns.entryOf name key with
    | none => rw [List.filterMap_cons_none hkey]; rfl
    | some entry => rw [List.filterMap_cons_some hkey]; rfl

/-! ## Keys of one company do not collide -/

theorem owners_step {company : String} {acc : List (String × List String)}
    (h : acc = [] ∨ acc = [(ns.hashCompanyId company, [company])]) :
    upsert (ns.hashCompanyId company) [] (insertId company) acc =
      [(ns.hashCompanyId company, [company])] := by
  rcases h with rfl | rfl
  · rfl
  · simp [upsert, insertId]

theorem owners_foldl {company : String} : ∀ {companies : List String}
    {acc : List (String × List String)}, (∀ c ∈ companies, c = company) →
    (acc = [] ∨ acc = [(ns.hashCompanyId company, [company])]) →
      let owners := companies.foldl
        (fun acc c => upsert (ns.hashCompanyId c) [] (insertId c) acc) acc
      owners = [] ∨ owners = [(ns.hashCompanyId company, [company])] := by
  intro companies
  induction companies with
  | nil =>
    intro acc _ h
    exact h
  | cons c companies ih =>
    intro acc hall h
    obtain rfl := hall c (by simp)
    rw [List.foldl_cons, owners_step h]
    exact ih (fun c' hc' => hall c' (by simp [hc'])) (.inr rfl)

theorem OneCompany.collisions {company : String} (h : ns.OneCompany company) :
    ns.collisions = [] := by
  have hall : ∀ c ∈ ns.serverKeys.filterMap ns.companyId, c = company := by
    intro c hc
    obtain ⟨key, hkey, hkc⟩ := List.mem_filterMap.mp hc
    rw [h.companyId key hkey] at hkc
    exact (Option.some.inj hkc).symm
  have howners : ns.owners = [] ∨ ns.owners = [(ns.hashCompanyId company, [company])] :=
    owners_foldl hall (.inl rfl)
  unfold IdListNamespaces.collisions
  rcases howners with howners | howners
  · simp [howners]
  · simp [howners]

/-! ## The union of one company -/

theorem lookup_map_incomplete {companies : List (String × CompanyManifest)} {unknown : Bool}
    {skh : String} :
    (companies.map fun company => (company.1,
        { company.2 with incomplete := company.2.incomplete || unknown })).lookup skh =
      (companies.lookup skh).map fun company =>
        { company with incomplete := company.incomplete || unknown } := by
  induction companies with
  | nil => rfl
  | cons item companies ih =>
    by_cases hskh : skh = item.1
    · obtain ⟨k, company⟩ := item
      subst hskh
      rw [List.map_cons, List.lookup_cons, List.lookup_cons, beq_self_eq_true]
      rfl
    · obtain ⟨k, company⟩ := item
      rw [List.map_cons, lookup_cons_of_ne hskh, lookup_cons_of_ne hskh, ih]

/-- **The union chooses the champion of the entries.** -/
theorem chosen_eq_champion {company : String} (h : ns.OneCompany company) (name : String) :
    ns.chosen company name = champion replaces (ns.entries name) := by
  have hfold : ns.entryIn company name (ns.serverKeys.foldl ns.mergeKey ([], 0, false)) =
      champion replaces (ns.entries name) :=
    entryIn_foldl name List.Pairwise.nil h.companyId h.distinct
  have hok : ns.chosen company name =
      ns.entryIn company name (ns.serverKeys.foldl ns.mergeKey ([], 0, false)) := by
    unfold chosen companyManifests entryIn
    rw [if_neg (not_not.mpr h.collisions)]
    simp only [lookup_map_incomplete]
    cases (ns.serverKeys.foldl ns.mergeKey ([], 0, false)).1.lookup (ns.hashCompanyId company) with
    | none => rfl
    | some company => rfl
  exact hok.trans hfold

/-- **The choice is the same in every order of the keys exactly when one
entry of the list replaces all others.** -/
theorem chosen_perm_iff_decided {company : String} (h : ns.OneCompany company) (name : String) :
    (∀ keys : List String, keys.Perm ns.serverKeys →
        (ns.visiting keys).chosen company name = ns.chosen company name) ↔ ns.Decided name := by
  have hchampion : ∀ keys : List String, keys.Perm ns.serverKeys →
      (ns.visiting keys).chosen company name =
        champion replaces (keys.filterMap (ns.entryOf name)) :=
    fun keys hperm => chosen_eq_champion (h.visiting hperm) name
  unfold Decided
  rw [← champion_perm_iff replaces_asymm, chosen_eq_champion h name]
  constructor
  · intro hsame entrants hperm
    obtain ⟨keys, hkeys, rfl⟩ := exists_perm_filterMap _ _ hperm
    rw [← hchampion keys hkeys]
    exact hsame keys hkeys
  · intro hsame keys hkeys
    rw [hchampion keys hkeys]
    exact hsame _ (hkeys.filterMap _)

/-! ## A choice that depends on the order -/

/-- Three keys that see one list: `a` and `b` the same file, `b` with a
later creation time and a smaller size, `c` another file, created between
the two. -/
def crossedEntry (key : String) : Option IdListMetadata :=
  if key = "a" then some ⟨"old", 1, "u", 10⟩
  else if key = "b" then some ⟨"old", 3, "u", 5⟩
  else if key = "c" then some ⟨"new", 2, "u", 7⟩
  else none

def crossed : IdListNamespaces where
  serverKeys := ["a", "b", "c"]
  companyId := fun _ => some "company"
  manifests := fun key => (crossedEntry key).map fun entry => [("shared", entry)]
  hashCompanyId := fun _ => "hash"

theorem crossed_oneCompany : crossed.OneCompany "company" := by
  refine ⟨by decide, fun _ _ => rfl, ?_⟩
  intro key manifest h
  obtain ⟨entry, _, rfl⟩ := Option.map_eq_some_iff.mp h
  exact List.nodup_singleton _

/-- In the order `a`, `b`, `c` the union takes the file that is not the
newest; in the order `b`, `c`, `a` it takes the newest file. -/
theorem not_forall_chosen_perm :
    ¬ ∀ (ns : IdListNamespaces) (company : String), ns.OneCompany company →
      ∀ (name : String) (keys : List String), keys.Perm ns.serverKeys →
        (ns.visiting keys).chosen company name = ns.chosen company name := by
  intro hclaim
  have hsame := hclaim crossed "company" crossed_oneCompany "shared" ["b", "c", "a"] (by decide)
  have hfirst : crossed.chosen "company" "shared" = some ⟨"new", 2, "u", 7⟩ := by decide +kernel
  have hother : (crossed.visiting ["b", "c", "a"]).chosen "company" "shared" =
      some ⟨"old", 1, "u", 10⟩ := by decide +kernel
  rw [hfirst, hother] at hsame
  simp at hsame

/-- Two keys that see growing offsets of one file. -/
def growing : IdListNamespaces where
  serverKeys := ["a", "b"]
  companyId := fun _ => some "company"
  manifests := fun key =>
    if key = "a" then some [("shared", ⟨"old", 10, "u", 50⟩)]
    else some [("shared", ⟨"old", 11, "u", 40⟩)]
  hashCompanyId := fun _ => "hash"

theorem chosen_perm_growing : growing.OneCompany "company" ∧
    ((∀ keys : List String, keys.Perm growing.serverKeys →
        (growing.visiting keys).chosen "company" "shared" = growing.chosen "company" "shared") ↔
      growing.Decided "shared") := by
  have hone : growing.OneCompany "company" := by
    refine ⟨by decide, fun _ _ => rfl, ?_⟩
    intro key manifest h
    simp only [growing] at h
    split at h
    · obtain rfl := Option.some.inj h
      exact List.nodup_singleton _
    · obtain rfl := Option.some.inj h
      exact List.nodup_singleton _
  exact ⟨hone, chosen_perm_iff_decided hone "shared"⟩

end IdListNamespaces

end ForwardProxy.IdList
