/-
ForwardProxy.IdList.ReverseTokenTheorems — clearing a token touches one
company.

The pattern matches the keys that begin with `member_key(skh, "")`, for
every prefix and namespace (`matches_iff`). Of the keys that the schema
builds these are the member keys of the company, because a namespace has
four characters (`memberKey_prefix_iff`).

`ClearInv` is the invariant of the loop. A key that still holds the token
has held it all along, since no one adds it; so it has been there since
the start of the iteration, and is owed or about to be sent.

Without other clients the loop is simulated by the operation on the member
sets (`clearReverseToken_simulates`). The loop learns its pages one by one
and that operation has them all at once, so the simulation goes from the
end of a run to its start: `Remaining` is what is left to be sent, with
pages that hold whatever is owed.
-/
import Mathlib.Data.List.Basic
import Mathlib.Data.Set.Finite.Basic
import ForwardProxy.IdList.KeySchemaTheorems
import ForwardProxy.IdList.ReverseToken
import ForwardProxy.IdList.Script
import ForwardProxy.IdList.StreamedDiffTheorems

namespace ForwardProxy.IdList

open Effect Text IdListKeySchema Keyspace

/-! ## Which keys match -/

theorem matches_iff (schema : IdListKeySchema) (skh : String) (key : RedisKey) :
    Matches schema skh key ↔ keyBytes (schema.memberKey skh "") <+: key :=
  globMatch_escape_star _ key

theorem memberKey_toList (schema : IdListKeySchema) (skh lookupId : String) :
    (schema.memberKey skh lookupId).toList =
      schema.prefixText ++ 'i' :: ':' :: (skh.toList ++ (escapeComponent lookupId).toList) := by
  simp [memberKey, prefixed_toList]

/-- Of the keys of the schema, those of the member sets of the company
match. -/
theorem memberKey_prefix_iff (schema : IdListKeySchema) (skh : Namespace) (key : IdListKey) :
    keyBytes (schema.memberKey skh.text "") <+: keyBytes (schema.key key) ↔
      ∃ lookupId, key = .member skh lookupId := by
  have hempty : (escapeComponent "").toList = [] := by decide
  unfold keyBytes
  rw [utf8_prefix_iff, memberKey_toList, hempty, List.append_nil, key_toList,
    List.prefix_append_right_inj]
  constructor
  · intro h
    by_cases hkey : components key = []
    · cases key <;> cases hkey
      rename_i skh' lookupId
      refine ⟨lookupId, ?_⟩
      simp only [bareKey, List.cons_prefix_cons, true_and] at h
      have htake := List.prefix_iff_eq_take.mp h
      rw [skh.length_eq, List.take_append_of_le_length (by rw [skh'.length_eq]),
        List.take_of_length_le (by rw [skh'.length_eq])] at htake
      rw [Namespace.eq_of_toList htake]
    · obtain ⟨rest, hrest⟩ := bareKey_starts hkey
      rw [hrest, List.cons_prefix_cons, List.cons_prefix_cons] at h
      exact absurd h.2.1 (by decide)
  · rintro ⟨lookupId, rfl⟩
    simp [bareKey]

/-! ## SREM -/

namespace Keyspace

variable {keys keys' : Keyspace} {key : RedisKey} {m : String}

/-- SREM changes one key: it takes one member out of a set. -/
theorem of_srem (h : keys.srem key m = some keys') :
    (∀ other, other ≠ key → keys' other = keys other) ∧
      keys'.members key = (keys.members key).erase m ∧
      ∀ content, keys' key ≠ some (.other content) := by
  unfold srem at h
  cases hvalue : keys key with
  | none =>
    simp only [hvalue, Option.some.injEq] at h
    subst h
    exact ⟨fun _ _ => rfl, by simp [members, hvalue], by simp [hvalue]⟩
  | some value =>
    cases value with
    | other content => simp [hvalue] at h
    | set ms =>
      simp only [hvalue, Option.some.injEq] at h
      subst h
      refine ⟨fun other hne => Function.update_of_ne hne _ _, ?_, ?_⟩
      · unfold members without
        rw [Function.update_self, hvalue]
        split_ifs with hempty
        · exact hempty.symm
        · rfl
      · intro content
        unfold without
        rw [Function.update_self]
        split_ifs <;> simp

theorem members_srem (h : keys.srem key m = some keys') (other : RedisKey) :
    keys'.members other =
      if other = key then (keys.members other).erase m else keys.members other := by
  obtain ⟨hframe, hkey, _⟩ := of_srem h
  split_ifs with hother
  · rw [hother, hkey]
  · unfold members
    rw [hframe other hother]

/-- A key that holds a member exists. -/
theorem ne_none_of_mem (h : m ∈ keys.members key) : keys key ≠ none := by
  intro hnone
  simp [members, hnone] at h

theorem exists_srem (h : ∀ content, keys key ≠ some (.other content)) :
    ∃ keys', keys.srem key m = some keys' := by
  unfold srem
  cases hvalue : keys key with
  | none => exact ⟨keys, rfl⟩
  | some value =>
    cases value with
    | set ms => exact ⟨_, rfl⟩
    | other content => exact absurd hvalue (h content)

end Keyspace

/-- The keyspace holds the member sets of `db`, with the tokens as
decimal texts. -/
def Keyspace.HoldsMembers (schema : IdListKeySchema) (keys : Keyspace) (db : Db) : Prop :=
  ∀ (skh : Namespace) (lookupId : String),
    keys.members (keyBytes (schema.memberKey skh.text lookupId)) =
      (db.member (skh.text, lookupId)).image toString

/-- An SREM on the keyspace is the SREM on the member sets. -/
theorem Keyspace.HoldsMembers.srem {schema : IdListKeySchema} {keys keys' : Keyspace} {db : Db}
    {skh : Namespace} {lookupId : String} {token : Nat} (h : keys.HoldsMembers schema db)
    (hsrem : keys.srem (keyBytes (schema.memberKey skh.text lookupId)) (toString token) =
      some keys') :
    keys'.HoldsMembers schema (Write.apply db (.sremMember skh.text lookupId token)) := by
  intro skh' lookupId'
  rw [members_srem hsrem, h skh' lookupId']
  have hkey : keyBytes (schema.memberKey skh'.text lookupId') =
      keyBytes (schema.memberKey skh.text lookupId) ↔
        IdListKey.member skh' lookupId' = .member skh lookupId := by
    constructor
    · intro heq
      exact key_injective schema (String.toList_inj.mp (utf8_injective heq))
    · rintro heq
      simp only [IdListKey.member.injEq] at heq
      rw [heq.1, heq.2]
  by_cases heq : IdListKey.member skh' lookupId' = .member skh lookupId
  · rw [if_pos (hkey.mpr heq)]
    simp only [IdListKey.member.injEq] at heq
    obtain ⟨rfl, rfl⟩ := heq
    simp only [Write.apply, Db.setMember_member, Function.update_self]
    rw [Finset.image_erase fun _ _ => toString_nat_inj]
  · rw [if_neg fun he => heq (hkey.mp he)]
    have hne : (skh'.text, lookupId') ≠ (skh.text, lookupId) := by
      intro he
      simp only [Prod.mk.injEq] at he
      apply heq
      rw [Namespace.eq_of_toList (congrArg String.toList he.1), he.2]
    simp only [Write.apply, Db.setMember_member, Function.update_of_ne hne]

/-! ## The loop -/

section Loop

variable {schema : IdListKeySchema} {skh : String} {token batchSize : Nat} {s s' : ClearState}

/-- The loop between two steps. -/
structure ClearInv (schema : IdListKeySchema) (skh : String) (token : Nat) (s : ClearState) :
    Prop where
  sends : ∀ key ∈ s.phase.pending, keyBytes (schema.memberKey skh "") <+: key
  owes : s.phase ≠ .failed → ∀ key, keyBytes (schema.memberKey skh "") <+: key →
    toString token ∈ s.keys.members key → key ∈ s.owed ∨ key ∈ s.phase.pending
  sent : ∀ broken batch batches, s.phase = .sending 0 broken batch batches → s.owed = ∅
  done : s.phase = .done → s.owed = ∅

theorem clearInv_start (keys : Keyspace) :
    ClearInv schema skh token (clearStart schema skh keys) where
  sends := by simp [clearStart, ClearPhase.pending]
  owes := by
    intro _ key hkey htoken
    exact .inl ⟨ne_none_of_mem htoken, (matches_iff schema skh key).mpr hkey⟩
  sent := by simp [clearStart]
  done := by simp [clearStart]

/-- A step that fails keeps nothing to send. -/
theorem clearInv_failed (s : ClearState) :
    ClearInv schema skh token { s with phase := .failed } where
  sends := by simp [ClearPhase.pending]
  owes := by simp
  sent := by simp
  done := by simp

/-- The first key of the batch has been sent: it does not hold the token,
and no other key has been given it. -/
theorem clearInv_sent {cursor : Nat} {broken broken' : Bool} {key : List UInt8}
    {batch : List (List UInt8)} {batches : List (List (List UInt8))} {keys : Keyspace}
    (phase : s.phase = .sending cursor broken (key :: batch) batches)
    (hinv : ClearInv schema skh token s)
    (hkeys : ∀ other, toString token ∈ keys.members other →
      other ≠ key ∧ toString token ∈ s.keys.members other) :
    ClearInv schema skh token
      { s with keys := keys, phase := .sending cursor broken' batch batches } := by
  refine ⟨?_, ?_, ?_, by simp⟩
  · intro other hother
    refine hinv.sends other ?_
    rw [phase]
    exact List.mem_cons_of_mem key hother
  · intro _ other hother htoken
    obtain ⟨hne, hheld⟩ := hkeys other htoken
    have howes := hinv.owes (by simp [phase]) other hother hheld
    rw [phase] at howes
    rcases howes with howed | hpending
    · exact .inl howed
    · simp only [ClearPhase.pending, List.cons_append, List.mem_cons] at hpending
      exact .inr (hpending.resolve_left hne)
  · intro _ _ _ heq
    simp only [ClearPhase.sending.injEq] at heq
    exact hinv.sent broken (key :: batch) batches (by rw [phase, heq.1])

theorem clearInv_clearStep (h : ClearStep schema skh token batchSize s s')
    (hinv : ClearInv schema skh token s) : ClearInv schema skh token s' := by
  cases h with
  | scanFails phase => exact clearInv_failed s
  | sendFails phase => exact clearInv_failed s
  | broken phase => exact clearInv_failed s
  | scan phase found complete =>
    rename_i cursor next page
    have hpending : (ClearPhase.sending next false [] (chunks batchSize page)).pending = page := by
      simp [ClearPhase.pending, chunks_flatten]
    refine ⟨?_, ?_, ?_, by simp⟩
    · intro key hkey
      rw [hpending] at hkey
      exact (matches_iff schema skh key).mp (found key hkey).2
    · intro _ key hkey htoken
      rw [hpending]
      have howes := hinv.owes (by simp [phase]) key hkey htoken
      rw [phase] at howes
      rcases howes with howed | hnone
      · by_cases hpage : key ∈ page
        · exact .inr hpage
        · exact .inl ⟨howed, hpage⟩
      · simp [ClearPhase.pending] at hnone
    · intro broken batch batches heq
      simp only [ClearPhase.sending.injEq] at heq
      refine Set.eq_empty_of_forall_notMem fun key hkey => ?_
      exact hkey.2 (complete heq.1 key hkey.1)
  | srem phase removed =>
    refine clearInv_sent phase hinv fun other htoken => ?_
    rw [members_srem removed] at htoken
    split_ifs at htoken with heq
    · simp at htoken
    · exact ⟨heq, htoken⟩
  | sremWrongType phase wrong =>
    refine clearInv_sent phase hinv fun other htoken => ⟨?_, htoken⟩
    rintro rfl
    -- The key holds no set, so it does not hold the token.
    unfold Keyspace.srem at wrong
    unfold Keyspace.members at htoken
    split at wrong <;> simp_all
  | nextBatch phase =>
    rename_i cursor batch batches
    have hpending : s.phase.pending = (ClearPhase.sending cursor false batch batches).pending := by
      rw [phase]
      simp [ClearPhase.pending]
    refine ⟨?_, ?_, ?_, by simp⟩
    · intro key hkey
      exact hinv.sends key (hpending ▸ hkey)
    · intro _ key hkey htoken
      have howes := hinv.owes (by simp [phase]) key hkey htoken
      rwa [hpending] at howes
    · intro broken' batch' batches' heq
      simp only [ClearPhase.sending.injEq] at heq
      exact hinv.sent false [] (batch :: batches) (by rw [phase, heq.1])
  | pageDone phase =>
    rename_i cursor
    have howed : ∀ key, keyBytes (schema.memberKey skh "") <+: key →
        toString token ∈ s.keys.members key → key ∈ s.owed := by
      intro key hkey htoken
      have howes := hinv.owes (by simp [phase]) key hkey htoken
      rw [phase] at howes
      simpa [ClearPhase.pending] using howes
    by_cases hcursor : cursor = 0
    · subst hcursor
      refine ⟨by simp [ClearPhase.pending], fun _ key hkey htoken => .inl (howed key hkey htoken),
        by simp, fun _ => hinv.sent false [] [] phase⟩
    · simp only [if_neg hcursor]
      exact ⟨by simp [ClearPhase.pending], fun _ key hkey htoken => .inl (howed key hkey htoken),
        by simp, by simp⟩

theorem clearInv_otherStep (h : OtherStep schema skh token s s')
    (hinv : ClearInv schema skh token s) : ClearInv schema skh token s' := by
  cases h with
  | write keys adds =>
    refine ⟨hinv.sends, ?_, ?_, ?_⟩
    · intro hphase key hkey htoken
      rcases hinv.owes hphase key hkey (adds key hkey htoken) with howed | hpending
      · exact .inl ⟨howed, ne_none_of_mem htoken⟩
      · exact .inr hpending
    · intro broken batch batches hphase
      rw [hinv.sent broken batch batches hphase]
      simp
    · intro hphase
      rw [hinv.done hphase]
      simp

/-- A run: steps of the operation and writes of others, in any order. -/
def ClearRuns (schema : IdListKeySchema) (skh : String) (token batchSize : Nat) :
    ClearState → ClearState → Prop :=
  Relation.ReflTransGen fun s s' =>
    ClearStep schema skh token batchSize s s' ∨ OtherStep schema skh token s s'

theorem clearInv_run {keys : Keyspace}
    (h : ClearRuns schema skh token batchSize (clearStart schema skh keys) s) :
    ClearInv schema skh token s := by
  induction h with
  | refl => exact clearInv_start keys
  | tail _ hstep ih =>
    rcases hstep with hown | hother
    · exact clearInv_clearStep hown ih
    · exact clearInv_otherStep hother ih

/-- A step of the operation takes the token out of one key of the company,
or changes nothing. -/
theorem clearStep_keys (h : ClearStep schema skh token batchSize s s')
    (hinv : ClearInv schema skh token s) :
    s'.keys = s.keys ∨ ∃ key, keyBytes (schema.memberKey skh "") <+: key ∧
      s.keys.srem key (toString token) = some s'.keys := by
  cases h with
  | srem phase removed =>
    rename_i cursor broken key batch batches keys
    refine .inr ⟨key, hinv.sends key ?_, removed⟩
    rw [phase]
    simp [ClearPhase.pending]
  | _ => exact .inl rfl

/-- The SREMs of a pipeline are sent, and leave sets where there were
sets. -/
theorem batch_completes {cursor : Nat} {batch : List RedisKey} {batches : List (List RedisKey)}
    (hphase : s.phase = .sending cursor false batch batches)
    (hsets : ∀ key ∈ batch ++ batches.flatten, ∀ content, s.keys key ≠ some (.other content)) :
    ∃ s', Relation.ReflTransGen (ClearStep schema skh token batchSize) s s' ∧
      s'.phase = .sending cursor false [] batches ∧
      ∀ key ∈ batches.flatten, ∀ content, s'.keys key ≠ some (.other content) := by
  induction batch generalizing s with
  | nil => exact ⟨s, .refl, hphase, hsets⟩
  | cons key batch ih =>
    obtain ⟨keys, hkeys⟩ : ∃ keys, s.keys.srem key (toString token) = some keys :=
      exists_srem (hsets key (by simp))
    obtain ⟨hframe, _, hkept⟩ := of_srem hkeys
    have hsets' : ∀ other ∈ batch ++ batches.flatten, ∀ content,
        keys other ≠ some (.other content) := by
      intro other hother content
      by_cases heq : other = key
      · rw [heq]
        exact hkept content
      · rw [hframe other heq]
        exact hsets other (List.mem_cons_of_mem key hother) content
    have hstep : ClearStep schema skh token batchSize s
        { s with keys := keys, phase := .sending cursor false batch batches } :=
      .srem hphase hkeys
    obtain ⟨s', hrun, hend⟩ :=
      ih (s := { s with keys := keys, phase := .sending cursor false batch batches }) rfl hsets'
    exact ⟨s', .head hstep hrun, hend⟩

/-- A page of sets is worked off. -/
theorem page_completes {cursor : Nat} {batch : List RedisKey} {batches : List (List RedisKey)}
    (hphase : s.phase = .sending cursor false batch batches)
    (hsets : ∀ key ∈ s.phase.pending, ∀ content, s.keys key ≠ some (.other content)) :
    ∃ s', Relation.ReflTransGen (ClearStep schema skh token batchSize) s s' ∧
      s'.phase = if cursor = 0 then .done else .scanning cursor := by
  rw [hphase, ClearPhase.pending] at hsets
  induction batches generalizing batch s with
  | nil =>
    obtain ⟨s₁, hrun, hsent, _⟩ := batch_completes hphase hsets
    exact ⟨_, hrun.tail (.pageDone hsent), rfl⟩
  | cons next batches ih =>
    obtain ⟨s₁, hrun, hsent, hsets₁⟩ := batch_completes hphase hsets
    have hstep : ClearStep schema skh token batchSize s₁
        { s₁ with phase := .sending cursor false next batches } := .nextBatch hsent
    obtain ⟨s', hrest, hend⟩ :=
      ih (s := { s₁ with phase := .sending cursor false next batches }) rfl hsets₁
    exact ⟨s', hrun.trans (.head hstep hrest), hend⟩

end Loop

/-- When the operation is done, no member set holds the token. -/
theorem ClearInv.cleared {schema : IdListKeySchema} {skh : Namespace} {token : Nat} {s : ClearState}
    (hinv : ClearInv schema skh.text token s) (hdone : s.phase = .done) (lookupId : String) :
    toString token ∉ s.keys.members (keyBytes (schema.memberKey skh.text lookupId)) := by
  intro htoken
  have hkey := (memberKey_prefix_iff schema skh (.member skh lookupId)).mpr ⟨lookupId, rfl⟩
  rcases hinv.owes (by simp [hdone]) _ hkey htoken with howed | hpending
  · rw [hinv.done hdone] at howed
    exact howed
  · rw [hdone] at hpending
    simp [ClearPhase.pending] at hpending

/-- For every key prefix. The pattern matches the keys that begin with
`member_key(skh, "")`. In every run, however others write in between: when
the operation is done, no member set of the company holds the token; a
step of the operation touches only keys that begin so, keeps every other
token, and leaves every key of the schema that is not a member set of the
company as it is; and a page of sets that SCAN returned is worked off. -/
theorem clear_reverse_token_one_company (schema : IdListKeySchema) (batchSize : Nat) :
    (∀ (skh : String) (key : RedisKey),
      globMatch (utf8 (schema.tokenPattern skh)) key = true ↔
        keyBytes (schema.memberKey skh "") <+: key) ∧
    ∀ (skh : Namespace) (token : Nat) (keys : Keyspace) (s : ClearState),
      ClearRuns schema skh.text token batchSize (clearStart schema skh.text keys) s →
      (s.phase = .done → ∀ lookupId,
        toString token ∉ s.keys.members (keyBytes (schema.memberKey skh.text lookupId))) ∧
      (∀ s', ClearStep schema skh.text token batchSize s s' →
        (∀ key other, other ≠ toString token →
          (other ∈ s'.keys.members key ↔ other ∈ s.keys.members key)) ∧
        (∀ key, ¬ keyBytes (schema.memberKey skh.text "") <+: key → s'.keys key = s.keys key) ∧
        ∀ key, (∀ lookupId, key ≠ .member skh lookupId) →
          s'.keys (keyBytes (schema.key key)) = s.keys (keyBytes (schema.key key))) ∧
      ∀ cursor batch batches, s.phase = .sending cursor false batch batches →
        (∀ key ∈ s.phase.pending, ∀ content, s.keys key ≠ some (.other content)) →
        ∃ s', Relation.ReflTransGen (ClearStep schema skh.text token batchSize) s s' ∧
          s'.phase = if cursor = 0 then .done else .scanning cursor := by
  refine ⟨matches_iff schema, fun skh token keys s hrun => ?_⟩
  have hinv := clearInv_run hrun
  refine ⟨?_, ?_, fun cursor batch batches => page_completes⟩
  · exact fun hdone lookupId => hinv.cleared hdone lookupId
  · intro s' hstep
    rcases clearStep_keys hstep hinv with heq | ⟨key, hkey, hsrem⟩
    · rw [heq]
      exact ⟨fun _ _ _ => Iff.rfl, fun _ _ => rfl, fun _ _ => rfl⟩
    · obtain ⟨hframe, _, _⟩ := of_srem hsrem
      refine ⟨?_, ?_, ?_⟩
      · intro other t ht
        rw [members_srem hsrem]
        split_ifs
        · rw [Finset.mem_erase]
          exact and_iff_right ht
        · rfl
      · intro other hother
        exact hframe other fun heq => hother (heq ▸ hkey)
      · intro family hfamily
        refine hframe _ fun heq => ?_
        have hstarts : keyBytes (schema.memberKey skh.text "") <+: keyBytes (schema.key family) := by
          rw [heq]
          exact hkey
        obtain ⟨lookupId, hmember⟩ := (memberKey_prefix_iff schema skh family).mp hstarts
        exact hfamily lookupId hmember

/-! Under the prefix `a*[`: one member set, with the tokens 7 and 8. -/

def starSchema : IdListKeySchema := ⟨"a*["⟩

def starSkh : Namespace := companyNamespace 0 0 0

def starKey : RedisKey := keyBytes (starSchema.memberKey starSkh.text "m")

def starKeys : Keyspace := Function.update (fun _ => none) starKey (some (.set {"7", "8"}))

theorem starKey_matches : Matches starSchema starSkh.text starKey :=
  (matches_iff _ _ _).mpr ((memberKey_prefix_iff starSchema starSkh (.member starSkh "m")).mpr
    ⟨"m", rfl⟩)

theorem starKeys_only {key : RedisKey} (h : starKeys key ≠ none) : key = starKey := by
  by_contra hne
  exact h (Function.update_of_ne hne _ _)

/-- The iteration takes one page. -/
def starScanned : ClearState where
  keys := starKeys
  phase := .sending 0 false [] (chunks 2 [starKey])
  owed := {key ∈ (clearStart starSchema starSkh.text starKeys).owed | key ∉ [starKey]}

theorem star_scan : ClearStep starSchema starSkh.text 7 2
    (clearStart starSchema starSkh.text starKeys) starScanned := by
  refine .scan rfl ?_ ?_
  · intro key hkey
    rw [List.mem_singleton.mp hkey]
    exact ⟨by simp [clearStart, starKeys], starKey_matches⟩
  · intro _ key hkey
    exact List.mem_singleton.mpr (starKeys_only hkey.1)

theorem star_pending {key : RedisKey} (h : key ∈ starScanned.phase.pending) (content : String) :
    starScanned.keys key ≠ some (.other content) := by
  have hmem : key ∈ [starKey] := by
    simpa [starScanned, ClearPhase.pending, chunks_flatten] using h
  rw [List.mem_singleton.mp hmem]
  simp [starScanned, starKeys]

/-- The token 7 is cleared. -/
theorem clear_reverse_token_of_metacharacters :
    ∃ s, ClearRuns starSchema starSkh.text 7 2 (clearStart starSchema starSkh.text starKeys) s ∧
      s.phase = .done ∧ "7" ∉ s.keys.members starKey := by
  have hrun : ClearRuns starSchema starSkh.text 7 2 (clearStart starSchema starSkh.text starKeys)
      starScanned := .single (.inl star_scan)
  obtain ⟨_, hall⟩ := clear_reverse_token_one_company starSchema 2
  obtain ⟨_, _, hpage⟩ := hall starSkh 7 starKeys _ hrun
  obtain ⟨s, hrest, hdone⟩ := hpage 0 [] (chunks 2 [starKey]) rfl fun _ => star_pending
  have hruns : ClearRuns starSchema starSkh.text 7 2 (clearStart starSchema starSkh.text starKeys)
      s := hrun.trans (Relation.ReflTransGen.mono (fun _ _ h => .inl h) _ _ hrest)
  exact ⟨s, hruns, hdone, (hall starSkh 7 starKeys s hruns).1 hdone "m"⟩

/-! ## The operation on the member sets

`Worker.lean` has the operation on the member sets themselves, with a SCAN
that gives all its pages at once. Where nobody writes in between, it does
whatever the loop does. -/

section Simulation

variable {schema : IdListKeySchema} {skh : Namespace} {token : Nat} {w : IdListSyncWorker}
  {origin : String → List UInt8} {s t t' : ClearState} {db : Db}

/-- The key of the member set of an id. -/
def memberBytes (schema : IdListKeySchema) (skh : Namespace) (lookupId : String) : RedisKey :=
  keyBytes (schema.memberKey skh.text lookupId)

theorem memberBytes_injective : Function.Injective (memberBytes schema skh) := by
  intro lookupId lookupId' heq
  have hkey : IdListKey.member skh lookupId = .member skh lookupId' :=
    key_injective schema (String.toList_inj.mp (utf8_injective heq))
  simp only [IdListKey.member.injEq] at hkey
  exact hkey.2

theorem matches_memberBytes (lookupId : String) :
    Matches schema skh.text (memberBytes schema skh lookupId) :=
  (matches_iff _ _ _).mpr ((memberKey_prefix_iff schema skh (.member skh lookupId)).mpr
    ⟨lookupId, rfl⟩)

/-- The keys that match are those of member sets. -/
def Keyspace.OnlyMembers (schema : IdListKeySchema) (skh : Namespace) (keys : Keyspace) : Prop :=
  ∀ key, keys key ≠ none → Matches schema skh.text key →
    key ∈ Set.range (memberBytes schema skh) ∧ ∀ content, keys key ≠ some (.other content)

theorem Keyspace.OnlyMembers.srem {keys keys' : Keyspace} {key : RedisKey} {m : String}
    (h : keys.OnlyMembers schema skh) (hsrem : keys.srem key m = some keys') :
    keys'.OnlyMembers schema skh := by
  obtain ⟨hframe, _, hset⟩ := of_srem hsrem
  intro other hother hmatches
  by_cases heq : other = key
  · subst heq
    have hold : keys other ≠ none := by
      intro hnone
      simp only [Keyspace.srem, hnone, Option.some.injEq] at hsrem
      exact hother (hsrem ▸ hnone)
    exact ⟨(h other hold hmatches).1, hset⟩
  · rw [hframe other heq] at hother ⊢
    exact h other hother hmatches

/-- What the loop keeps where nobody writes in between. -/
structure ClearTidy (schema : IdListKeySchema) (skh : Namespace) (t : ClearState) : Prop where
  only : t.keys.OnlyMembers schema skh
  pending : ∀ key ∈ t.phase.pending, key ∈ Set.range (memberBytes schema skh)
  owed : t.owed.Finite
  unbroken : ∀ cursor batch batches, t.phase ≠ .sending cursor true batch batches

/-- An SREM to a pending key finds a set, or nothing. -/
theorem ClearTidy.exists_srem (h : ClearTidy schema skh t) {key : RedisKey}
    (hkey : key ∈ t.phase.pending) (m : String) : ∃ keys, t.keys.srem key m = some keys := by
  refine Keyspace.exists_srem fun content hcontent => ?_
  obtain ⟨lookupId, rfl⟩ := h.pending key hkey
  exact (h.only _ (by simp [hcontent]) (matches_memberBytes lookupId)).2 content hcontent

theorem clearTidy_step {batchSize : Nat}
    (hstep : ClearStep schema skh.text token batchSize t t') (h : ClearTidy schema skh t) :
    ClearTidy schema skh t' := by
  cases hstep with
  | scanFails phase => exact ⟨h.only, by simp [ClearPhase.pending], h.owed, by simp⟩
  | sendFails phase => exact ⟨h.only, by simp [ClearPhase.pending], h.owed, by simp⟩
  | broken phase => exact absurd phase (h.unbroken _ _ _)
  | scan phase found complete =>
    refine ⟨h.only, fun key hkey => ?_, h.owed.subset (Set.sep_subset _ _), by simp⟩
    simp only [ClearPhase.pending, List.nil_append, chunks_flatten] at hkey
    exact (h.only key (found key hkey).1 (found key hkey).2).1
  | srem phase removed =>
    rename_i cursor broken key batch batches keys
    refine ⟨h.only.srem removed, fun other hother => h.pending other ?_, h.owed, ?_⟩
    · rw [phase]
      exact List.mem_cons_of_mem key hother
    · rintro cursor' batch' batches' heq
      simp only [ClearPhase.sending.injEq] at heq
      exact h.unbroken cursor (key :: batch) batches (by rw [phase, heq.2.1])
  | sremWrongType phase wrong =>
    obtain ⟨keys, hkeys⟩ := h.exists_srem (by rw [phase]; exact List.mem_cons_self) (toString token)
    rw [wrong] at hkeys
    cases hkeys
  | nextBatch phase =>
    refine ⟨h.only, fun key hkey => h.pending key ?_, h.owed, by simp⟩
    rw [phase]
    simpa [ClearPhase.pending] using hkey
  | pageDone phase =>
    rename_i cursor
    refine ⟨h.only, ?_, h.owed, ?_⟩ <;> split_ifs <;> simp [ClearPhase.pending]

/-- The start of an iteration over finitely many keys. -/
theorem clearTidy_start {keys : Keyspace} (honly : keys.OnlyMembers schema skh)
    (hfinite : {key | keys key ≠ none ∧ Matches schema skh.text key}.Finite) :
    ClearTidy schema skh (clearStart schema skh.text keys) :=
  ⟨honly, by simp [clearStart, ClearPhase.pending], hfinite, by simp [clearStart]⟩

/-- The body of the worker's loop over the pages. -/
def clearPage (w : IdListSyncWorker) (skh : String) (token : Nat) (page : List String) :
    Redis Unit := do
  renewNow
  Prog.forEach (Prog.forEach fun m => write (.sremMember skh m token))
    (chunks w.config.pipelineBatchSize page)

theorem clearReverseToken_eq (skh : String) : w.clearReverseToken skh token =
    scanMembers skh >>= fun pages => Prog.forEach (clearPage w skh token) pages := rfl

/-- What is left of the operation: the SREMs of the page that is being sent,
and pages with all that is owed. -/
inductive Remaining (w : IdListSyncWorker) (schema : IdListKeySchema) (skh : Namespace)
    (token : Nat) (t : ClearState) : Redis Unit → Prop where
  | scanning {cursor : Nat} (pages : List (List String)) (phase : t.phase = .scanning cursor)
      (covers : ∀ lookupId, memberBytes schema skh lookupId ∈ t.owed → lookupId ∈ pages.flatten) :
      Remaining w schema skh token t (Prog.forEach (clearPage w skh.text token) pages)
  | sending {cursor : Nat} (batch : List String) (batches pages : List (List String))
      (phase : t.phase = .sending cursor false (batch.map (memberBytes schema skh))
        (batches.map (List.map (memberBytes schema skh))))
      (covers : ∀ lookupId, memberBytes schema skh lookupId ∈ t.owed → lookupId ∈ pages.flatten) :
      Remaining w schema skh token t
        ((Prog.forEach (fun m => write (.sremMember skh.text m token)) batch).bind fun _ =>
          (Prog.forEach (Prog.forEach fun m => write (.sremMember skh.text m token)) batches).bind
            fun _ => Prog.forEach (clearPage w skh.text token) pages)
  | ended (phase : t.phase = .done ∨ t.phase = .failed) : Remaining w schema skh token t (.pure ())

/-- Finitely many keys fit on one page. -/
theorem ClearTidy.exists_cover (h : ClearTidy schema skh t) : ∃ pages : List (List String),
    ∀ lookupId, memberBytes schema skh lookupId ∈ t.owed → lookupId ∈ pages.flatten := by
  have hinj : Function.Injective (memberBytes schema skh) := memberBytes_injective
  have hnames := h.owed.preimage hinj.injOn
  exact ⟨[hnames.toFinset.toList], fun lookupId howed => by simpa using howed⟩

theorem ClearTidy.exists_remaining (h : ClearTidy schema skh t) :
    ∃ p, Remaining w schema skh token t p := by
  obtain ⟨pages, hcovers⟩ := h.exists_cover
  cases hphase : t.phase with
  | scanning cursor => exact ⟨_, .scanning pages hphase hcovers⟩
  | done => exact ⟨_, .ended (.inl hphase)⟩
  | failed => exact ⟨_, .ended (.inr hphase)⟩
  | sending cursor broken batch batches =>
    cases broken with
    | true => exact absurd hphase (h.unbroken _ _ _)
    | false =>
      have hpending := h.pending
      rw [hphase] at hpending
      have hbatch : batch ∈ Set.range (List.map (memberBytes schema skh)) := by
        rw [Set.range_list_map]
        exact fun key hkey => hpending key (List.mem_append_left _ hkey)
      have hbatches : batches ∈ Set.range (List.map (List.map (memberBytes schema skh))) := by
        rw [Set.range_list_map]
        intro batch' hbatch'
        rw [Set.range_list_map]
        exact fun key hkey => hpending key
          (List.mem_append_right _ (List.mem_flatten.mpr ⟨batch', hbatch', hkey⟩))
      obtain ⟨names, rfl⟩ := hbatch
      obtain ⟨pieces, rfl⟩ := hbatches
      exact ⟨_, .sending names pieces pages hphase hcovers⟩

theorem chunksGo_map {α β : Type} (f : α → β) (n : Nat) : ∀ (xs acc : List α),
    chunksGo n (acc.map f) (xs.map f) = (chunksGo n acc xs).map (List.map f)
  | [], acc => by
      simp only [List.map_nil, chunksGo, List.isEmpty_map]
      split <;> rfl
  | x :: xs, acc => by
      have hgo := chunksGo_map f n xs []
      have hgo' := chunksGo_map f n xs (acc ++ [x])
      simp only [List.map_nil, List.map_append, List.map_cons] at hgo hgo'
      simp only [List.map_cons, chunksGo, List.length_append, List.length_map, List.length_singleton]
      split
      · simp [hgo]
      · exact hgo'

theorem chunks_map {α β : Type} (f : α → β) (n : Nat) (xs : List α) :
    chunks n (xs.map f) = (chunks n xs).map (List.map f) :=
  chunksGo_map f n xs []

/-- A renewal that is answered. -/
theorem exec_renewNow {α : Type} {p : Redis α} {db' : Db} {o : Outcome WorkerError α}
    (h : Exec (redis origin) p db db' o) :
    Exec (redis origin) (renewNow.bind fun _ => p) db db' o := by
  have hheld : (redis origin).step db .held true db := rfl
  have hrenew : (redis origin).step db .renew true db := rfl
  exact .call hheld (.call hrenew h)

/-- A loop that has failed stays as it is. -/
theorem failed_stays {batchSize : Nat} (hphase : t.phase = .failed)
    (hrun : Relation.ReflTransGen (ClearStep schema skh.text token batchSize) t s) : s = t := by
  rcases hrun.cases_head with rfl | ⟨t', hstep, _⟩
  · rfl
  · cases hstep <;> simp_all

/-- One step of the loop, and the commands of the operation that do it. -/
theorem remaining_step (origin : String → List UInt8)
    (hstep : ClearStep schema skh.text token w.config.pipelineBatchSize t t')
    (hinv : ClearInv schema skh.text token t) (htidy : ClearTidy schema skh t)
    (hgoes : t'.phase ≠ .failed) (hdb : t.keys.HoldsMembers schema db) :
    ∃ db₁, t'.keys.HoldsMembers schema db₁ ∧ ∀ p', Remaining w schema skh token t' p' →
      ∃ p, Remaining w schema skh token t p ∧ ∀ db' o,
        Exec (redis origin) p' db₁ db' o → Exec (redis origin) p db db' o := by
  have htidy' := clearTidy_step hstep htidy
  cases hstep with
  | scanFails phase => exact absurd rfl hgoes
  | sendFails phase => exact absurd rfl hgoes
  | broken phase => exact absurd rfl hgoes
  | sremWrongType phase wrong => exact absurd rfl (htidy'.unbroken _ _ _)
  | scan phase found complete =>
    rename_i cursor next page
    refine ⟨db, hdb, fun p' hp' => ?_⟩
    cases hp' with
    | scanning pages phase' => cases phase'
    | ended phase' => rcases phase' with phase' | phase' <;> cases phase'
    | sending batch batches pages phase' covers =>
      simp only [ClearPhase.sending.injEq] at phase'
      obtain ⟨_, _, hbatch, hpage⟩ := phase'
      have hnames : page = batches.flatten.map (memberBytes schema skh) := by
        rw [← chunks_flatten w.config.pipelineBatchSize page, hpage, List.map_flatten]
      have hbatches : batches = chunks w.config.pipelineBatchSize batches.flatten := by
        rw [hnames, chunks_map] at hpage
        exact (List.map_injective_iff.mpr (List.map_injective_iff.mpr memberBytes_injective)
          hpage).symm
      obtain rfl : batch = [] := by simpa using hbatch.symm
      refine ⟨_, .scanning (batches.flatten :: pages) phase fun lookupId howed => ?_,
        fun db' o he => ?_⟩
      · by_cases hmem : memberBytes schema skh lookupId ∈ page
        · rw [hnames, List.mem_map_of_injective memberBytes_injective] at hmem
          exact List.mem_append_left _ hmem
        · exact List.mem_append_right _ (covers lookupId ⟨howed, hmem⟩)
      · show Exec (redis origin) ((clearPage w skh.text token batches.flatten).bind fun _ =>
          Prog.forEach (clearPage w skh.text token) pages) db db' o
        unfold clearPage
        rw [← hbatches]
        show Exec (redis origin) ((renewNow.bind fun _ => _).bind _) db db' o
        rw [Prog.bind_assoc]
        exact exec_renewNow he
  | srem phase removed =>
    rename_i cursor broken key batch batches keys
    obtain ⟨lookupId, rfl⟩ := htidy.pending key (by rw [phase]; exact List.mem_cons_self)
    refine ⟨_, hdb.srem removed, fun p' hp' => ?_⟩
    cases hp' with
    | scanning pages phase' => cases phase'
    | ended phase' => rcases phase' with phase' | phase' <;> cases phase'
    | sending names pieces pages phase' covers =>
      simp only [ClearPhase.sending.injEq] at phase'
      obtain ⟨rfl, rfl, rfl, rfl⟩ := phase'
      exact ⟨_, .sending (lookupId :: names) pieces pages phase covers,
        fun db' o he => .call (r := ()) rfl he⟩
  | nextBatch phase =>
    refine ⟨db, hdb, fun p' hp' => ?_⟩
    cases hp' with
    | scanning pages phase' => cases phase'
    | ended phase' => rcases phase' with phase' | phase' <;> cases phase'
    | sending names pieces pages phase' covers =>
      simp only [ClearPhase.sending.injEq] at phase'
      obtain ⟨rfl, _, rfl, rfl⟩ := phase'
      refine ⟨_, .sending [] (names :: pieces) pages phase covers, fun db' o he => ?_⟩
      show Exec (redis origin) ((Prog.bind _ _).bind _) db db' o
      rw [Prog.bind_assoc]
      exact he
  | pageDone phase =>
    rename_i cursor
    refine ⟨db, hdb, fun p' hp' => ?_⟩
    by_cases hcursor : cursor = 0
    · subst hcursor
      have howed : t.owed = ∅ := hinv.sent _ _ _ phase
      cases hp' with
      | scanning pages phase' => cases phase'
      | sending names pieces pages phase' covers => cases phase'
      | ended phase' =>
        exact ⟨_, .sending [] [] [] phase (by simp [howed]), fun _ _ he => he⟩
    · simp only [if_neg hcursor] at hp'
      cases hp' with
      | ended phase' => rcases phase' with phase' | phase' <;> cases phase'
      | sending names pieces pages phase' covers => cases phase'
      | scanning pages phase' covers =>
        exact ⟨_, .sending [] [] pages phase covers, fun _ _ he => he⟩

/-- What the loop does from `t` on, what is left of the operation can do. -/
theorem exec_remaining (origin : String → List UInt8)
    (hrun : Relation.ReflTransGen
      (ClearStep schema skh.text token w.config.pipelineBatchSize) t s)
    (hinv : ClearInv schema skh.text token t) (htidy : ClearTidy schema skh t)
    (hdb : t.keys.HoldsMembers schema db) :
    ∃ p db' o, Remaining w schema skh token t p ∧ Exec (redis origin) p db db' o ∧
      s.keys.HoldsMembers schema db' ∧ (s.phase = .done → o = .ok ()) := by
  induction hrun using Relation.ReflTransGen.head_induction_on generalizing db with
  | refl =>
    by_cases hdone : s.phase = .done
    · exact ⟨_, db, .ok (), .ended (.inl hdone), .pure () db, hdb, fun _ => rfl⟩
    · obtain ⟨p, hp⟩ : ∃ p, Remaining w schema skh token s p := htidy.exists_remaining
      exact ⟨p, db, .stopped, hp, .stop p db, hdb, fun h => absurd h hdone⟩
  | @head t t' hstep hrest ih =>
    by_cases hfailed : t'.phase = .failed
    · obtain rfl := failed_stays hfailed hrest
      have hkeys : s.keys = t.keys := by cases hstep <;> simp_all
      obtain ⟨p, hp⟩ : ∃ p, Remaining w schema skh token t p := htidy.exists_remaining
      exact ⟨p, db, .stopped, hp, .stop p db, hkeys ▸ hdb, by simp [hfailed]⟩
    · obtain ⟨db₁, hdb₁, hback⟩ := remaining_step origin hstep hinv htidy hfailed hdb
      obtain ⟨p', db', o, hp', he, hend⟩ :=
        ih (clearInv_clearStep hstep hinv) (clearTidy_step hstep htidy) hdb₁
      obtain ⟨p, hp, hexec⟩ := hback p' hp'
      exact ⟨p, db', o, hp, hexec db' o he, hend⟩

/-- **The operation on the member sets does what the loop does**, where
nobody writes in between and the keys that match are finitely many, all of
member sets: whatever keys a run of the loop leaves, a run of the operation
leaves their members; it ends when the loop is done. -/
theorem clearReverseToken_simulates (w : IdListSyncWorker) (origin : String → List UInt8)
    {keys : Keyspace} (honly : keys.OnlyMembers schema skh)
    (hfinite : {key | keys key ≠ none ∧ Matches schema skh.text key}.Finite)
    (hdb : keys.HoldsMembers schema db)
    (hrun : Relation.ReflTransGen (ClearStep schema skh.text token w.config.pipelineBatchSize)
      (clearStart schema skh.text keys) s) :
    ∃ db' o, Exec (redis origin) (w.clearReverseToken skh.text token) db db' o ∧
      s.keys.HoldsMembers schema db' ∧ (s.phase = .done → o = .ok ()) := by
  obtain ⟨p, db', o, hp, he, hend⟩ := exec_remaining origin hrun
    (clearInv_start keys) (clearTidy_start honly hfinite) hdb
  cases hp with
  | sending batch batches pages phase covers => cases phase
  | ended phase => rcases phase with phase | phase <;> cases phase
  | scanning pages phase covers =>
    refine ⟨db', o, ?_, hend⟩
    rw [clearReverseToken_eq]
    refine .call ⟨fun lookupId hmember => covers lookupId ⟨?_, matches_memberBytes lookupId⟩, rfl⟩ he
    -- a member set that is not empty has a key
    intro hnone
    have hmembers := hdb skh lookupId
    have hempty : keys.members (memberBytes schema skh lookupId) = ∅ := by
      simp [Keyspace.members, hnone]
    rw [show keyBytes (schema.memberKey skh.text lookupId) = memberBytes schema skh lookupId from rfl,
      hempty] at hmembers
    exact hmember (Finset.image_eq_empty.mp hmembers.symm)

end Simulation

/-- The same keys as member sets. -/
theorem star_holds : starKeys.HoldsMembers starSchema
    (Db.setMember {} starSkh.text "m" {7, 8}) := by
  intro skh lookupId
  by_cases heq : IdListKey.member skh lookupId = .member starSkh "m"
  · simp only [IdListKey.member.injEq] at heq
    obtain ⟨rfl, rfl⟩ := heq
    have himage : ({7, 8} : Finset Nat).image toString = {"7", "8"} := by decide
    show starKeys.members starKey = _
    simp [starKeys, Keyspace.members, himage]
  · have hnone : starKeys (keyBytes (starSchema.memberKey skh.text lookupId)) = none := by
      by_contra hsome
      exact heq (key_injective starSchema
        (String.toList_inj.mp (utf8_injective (starKeys_only hsome))))
    have hne : (skh.text, lookupId) ≠ (starSkh.text, "m") := by
      intro he
      simp only [Prod.mk.injEq] at he
      apply heq
      rw [Namespace.eq_of_toList (congrArg String.toList he.1), he.2]
    simp [Keyspace.members, hnone, Function.update_of_ne hne]

/-- The worker clears the token 7 of the member set. -/
theorem clearReverseToken_of_metacharacters : ∃ db',
    Exec (redis smallOrigin) ((smallWorker true).clearReverseToken starSkh.text 7)
      (Db.setMember {} starSkh.text "m" {7, 8}) db' (.ok ()) ∧
    7 ∉ db'.member (starSkh.text, "m") := by
  obtain ⟨s, hrest, hdone⟩ : ∃ s, Relation.ReflTransGen (ClearStep starSchema starSkh.text 7 2)
      starScanned s ∧ s.phase = if 0 = 0 then .done else .scanning 0 :=
    page_completes rfl fun _ => star_pending
  have hrun := Relation.ReflTransGen.head star_scan hrest
  have honly : starKeys.OnlyMembers starSchema starSkh := by
    intro key hkey _
    obtain rfl := starKeys_only hkey
    exact ⟨⟨"m", rfl⟩, by simp [starKeys]⟩
  have hfinite : {key | starKeys key ≠ none ∧ Matches starSchema starSkh.text key}.Finite :=
    (Set.finite_singleton starKey).subset fun _ hkey => starKeys_only hkey.1
  obtain ⟨db', o, he, hmembers, hok⟩ :=
    clearReverseToken_simulates (smallWorker true) smallOrigin honly hfinite star_holds hrun
  obtain rfl := hok hdone
  refine ⟨db', he, fun hmem => ?_⟩
  have hruns : ClearRuns starSchema starSkh.text 7 2 (clearStart starSchema starSkh.text starKeys)
      s := Relation.ReflTransGen.mono (fun _ _ h => .inl h) _ _ hrun
  refine (clearInv_run hruns).cleared hdone "m" ?_
  rw [hmembers starSkh "m"]
  exact Finset.mem_image_of_mem toString hmem

end ForwardProxy.IdList
