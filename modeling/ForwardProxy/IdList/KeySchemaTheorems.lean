/-
ForwardProxy.IdList.KeySchemaTheorems — no two keys collide.

An escaped component contains no `:`, and neither does a namespace. A key
is therefore the list of its components with `::` between them, and can be
read back (`components_of_key`). Ten lists of components remain to be told
apart: their fixed words are not four characters long, except `dict`, and
that one is followed by a namespace where the others have a longer word.

Member keys have no `::`. They begin with `i:` where every other key
begins with `id`, and the namespace in them has a fixed length.
-/
import Mathlib.Data.List.Basic
import ForwardProxy.IdList.KeySchema
import ForwardProxy.IdList.SchemaTheorems

namespace ForwardProxy.IdList

open Text

/-! ## Components -/

theorem unescapeChars_plain {c : Char} (h : c ≠ '%') (rest : List Char) :
    unescapeChars (c :: rest) = (unescapeChars rest).map (c :: ·) := by
  rw [unescapeChars]
  · intro _ hc
    exact absurd hc h
  · intro _ hc
    exact absurd hc h
  · exact h

theorem unescapeChars_escape (cs : List Char) : unescapeChars (cs.flatMap escapeChar) = some cs := by
  induction cs with
  | nil => rfl
  | cons c cs ih =>
    rw [List.flatMap_cons]
    by_cases hpercent : c = '%'
    · subst hpercent
      simp [escapeChar, unescapeChars, ih]
    · by_cases hcolon : c = ':'
      · subst hcolon
        simp [escapeChar, unescapeChars, ih]
      · simp [escapeChar, hpercent, hcolon, unescapeChars_plain hpercent, ih]

theorem unescapeComponent_escape (s : String) : unescapeComponent (escapeComponent s) = some s := by
  unfold unescapeComponent escapeComponent
  rw [String.toList_ofList, unescapeChars_escape]
  simp

theorem escapeComponent_inj {a b : String} (h : escapeComponent a = escapeComponent b) : a = b := by
  have hback := unescapeComponent_escape a
  rw [h, unescapeComponent_escape, Option.some.injEq] at hback
  exact hback.symm

theorem colon_not_mem_escape (s : String) : ':' ∉ (escapeComponent s).toList := by
  unfold escapeComponent
  rw [String.toList_ofList, List.mem_flatMap]
  rintro ⟨c, _, hc⟩
  unfold escapeChar at hc
  split at hc
  · simp at hc
  · split at hc
    · simp at hc
    · rename_i hne
      exact hne (List.mem_singleton.mp hc).symm

namespace Namespace

variable (skh : Namespace)

theorem colon_not_mem : ':' ∉ skh.text.toList := by
  intro h
  exact absurd (skh.base64 ':' h) (by decide)

theorem toList_ne {word : List Char} (h : word.length ≠ 4) : skh.text.toList ≠ word := by
  rintro rfl
  exact h skh.length_eq

theorem eq_of_toList {a b : Namespace} (h : a.text.toList = b.text.toList) : a = b := by
  have htext : a.text = b.text := String.toList_inj.mp h
  cases a
  cases b
  simp only at htext
  subst htext
  rfl

end Namespace

/-! ## Keys as lists of components -/

/-- The components of a key that is not a member key. -/
def components : IdListKey → List (List Char)
  | .dict skh => ["idlist".toList, "dict".toList, skh.text.toList]
  | .member _ _ => []
  | .fwd skh list ver =>
    ["idlist".toList, "fwd".toList, '\x7b' :: skh.text.toList,
      (escapeComponent list).toList ++ ['\x7d'], (escapeComponent ver).toList]
  | .state skh list =>
    ["idlist".toList, skh.text.toList, (escapeComponent list).toList, "state".toList]
  | .claim skh list =>
    ["idlist".toList, "claim".toList, skh.text.toList, (escapeComponent list).toList]
  | .queue => ["idlist".toList, "queue".toList, "pending".toList]
  | .taskMeta skh list =>
    ["idlist".toList, "task_meta".toList, skh.text.toList, (escapeComponent list).toList]
  | .allLists skh => ["idlist".toList, skh.text.toList, "__all".toList]
  | .ready skh => ["idlist".toList, skh.text.toList, "__ready".toList]
  | .producerLock => ["idlist".toList, "producer_lock".toList]

/-- The key without its prefix. -/
def bareKey : IdListKey → List Char
  | .member skh lookupId => 'i' :: ':' :: (skh.text.toList ++ (escapeComponent lookupId).toList)
  | key => [':', ':'].intercalate (components key)

/-- What `apply_key_prefix` puts in front. -/
def IdListKeySchema.prefixText (schema : IdListKeySchema) : List Char :=
  (schema.prefixed "").toList

theorem prefixed_toList (schema : IdListKeySchema) (key : String) :
    (schema.prefixed key).toList = schema.prefixText ++ key.toList := by
  unfold IdListKeySchema.prefixText IdListKeySchema.prefixed applyKeyPrefix
  split
  · simp
  · split <;> simp

theorem key_toList (schema : IdListKeySchema) (key : IdListKey) :
    (schema.key key).toList = schema.prefixText ++ bareKey key := by
  cases key <;>
    simp [IdListKeySchema.key, IdListKeySchema.dictKey, IdListKeySchema.memberKey,
      IdListKeySchema.fwdKey, IdListKeySchema.fwdHashTag, IdListKeySchema.stateKey,
      IdListKeySchema.claimKey, IdListKeySchema.queueKey, IdListKeySchema.taskMetaKey,
      IdListKeySchema.allListsKey, IdListKeySchema.readyKey, IdListKeySchema.producerLockKey,
      prefixed_toList, bareKey, components, List.intercalate_cons_cons]

theorem colon_not_mem_components (key : IdListKey) : ∀ part ∈ components key, ':' ∉ part := by
  have hskh := Namespace.colon_not_mem
  have hescape := colon_not_mem_escape
  cases key <;> simp [components, hskh, hescape]

/-- The family that components belong to, by their number and their fixed
words, as the index of its constructor. -/
def familyOf : List (List Char) → Nat
  | [_, _] => 9
  | [_, word, last] =>
    if word = "queue".toList then 5
    else if last = "__all".toList then 7
    else if last = "__ready".toList then 8
    else 0
  | [_, word, _, _] => if word = "claim".toList then 4 else if word = "task_meta".toList then 6 else 3
  | [_, _, _, _, _] => 2
  | _ => 1

theorem familyOf_components (key : IdListKey) : familyOf (components key) = key.ctorIdx := by
  cases key with
  | dict skh =>
    have hall : skh.text.toList ≠ "__all".toList := skh.toList_ne (by decide)
    have hready : skh.text.toList ≠ "__ready".toList := skh.toList_ne (by decide)
    have hqueue : "dict".toList ≠ "queue".toList := by decide
    rw [components, familyOf, if_neg hqueue, if_neg hall, if_neg hready]
    rfl
  | member skh lookupId => rfl
  | fwd skh list ver => rfl
  | state skh list =>
    have hclaim : skh.text.toList ≠ "claim".toList := skh.toList_ne (by decide)
    have hmeta : skh.text.toList ≠ "task_meta".toList := skh.toList_ne (by decide)
    rw [components, familyOf, if_neg hclaim, if_neg hmeta]
    rfl
  | claim skh list => rfl
  | queue => rfl
  | taskMeta skh list => rfl
  | allLists skh =>
    have hqueue : skh.text.toList ≠ "queue".toList := skh.toList_ne (by decide)
    rw [components, familyOf, if_neg hqueue]
    rfl
  | ready skh =>
    have hqueue : skh.text.toList ≠ "queue".toList := skh.toList_ne (by decide)
    rw [components, familyOf, if_neg hqueue]
    rfl
  | producerLock => rfl

/-- The components of a key name its family and its arguments. -/
theorem components_inj {a b : IdListKey} (ha : components a ≠ []) (h : components a = components b) :
    a = b := by
  have hescape : ∀ {x y : String},
      (escapeComponent x).toList = (escapeComponent y).toList → x = y :=
    fun h => escapeComponent_inj (String.toList_inj.mp h)
  have hfamily : a.ctorIdx = b.ctorIdx := by
    rw [← familyOf_components, ← familyOf_components, h]
  cases a <;> cases b <;> cases hfamily <;>
    simp only [components, List.cons.injEq, and_true, true_and, List.append_cancel_right_eq] at h
  case dict.refl => exact congrArg _ (Namespace.eq_of_toList h)
  case member.refl => exact absurd rfl ha
  case fwd.refl => rw [Namespace.eq_of_toList h.1, hescape h.2.1, hescape h.2.2]
  case state.refl => rw [Namespace.eq_of_toList h.1, hescape h.2]
  case claim.refl => rw [Namespace.eq_of_toList h.1, hescape h.2]
  case queue.refl => rfl
  case taskMeta.refl => rw [Namespace.eq_of_toList h.1, hescape h.2]
  case allLists.refl => exact congrArg _ (Namespace.eq_of_toList h)
  case ready.refl => exact congrArg _ (Namespace.eq_of_toList h)
  case producerLock.refl => rfl

theorem bareKey_eq_intercalate {key : IdListKey} (h : components key ≠ []) :
    bareKey key = [':', ':'].intercalate (components key) := by
  cases key with
  | member skh lookupId => exact absurd rfl h
  | _ => rfl

/-- A key that is not a member key begins with `id`. -/
theorem bareKey_starts {key : IdListKey} (h : components key ≠ []) :
    ∃ rest, bareKey key = 'i' :: 'd' :: rest := by
  rw [bareKey_eq_intercalate h]
  cases key with
  | member skh lookupId => exact absurd rfl h
  | _ =>
    rw [components, List.intercalate_cons_cons, List.append_assoc]
    exact ⟨_, rfl⟩

theorem bareKey_inj {a b : IdListKey} (h : bareKey a = bareKey b) : a = b := by
  by_cases ha : components a = []
  · by_cases hb : components b = []
    · cases a <;> cases ha
      cases b <;> cases hb
      simp only [bareKey, List.cons.injEq, true_and] at h
      rename_i skh lookupId skh' lookupId'
      obtain ⟨hskh, hlookup⟩ := List.append_inj h (skh.length_eq.trans skh'.length_eq.symm)
      rw [Namespace.eq_of_toList hskh, escapeComponent_inj (String.toList_inj.mp hlookup)]
    · obtain ⟨rest, hrest⟩ := bareKey_starts hb
      cases a <;> cases ha
      rw [hrest] at h
      simp [bareKey] at h
  · by_cases hb : components b = []
    · obtain ⟨rest, hrest⟩ := bareKey_starts ha
      cases b <;> cases hb
      rw [hrest] at h
      simp [bareKey] at h
    · rw [bareKey_eq_intercalate ha, bareKey_eq_intercalate hb] at h
      exact components_inj ha (intercalate_inj [':'] _ _ (colon_not_mem_components a)
        (colon_not_mem_components b) ha hb h)

theorem key_injective (schema : IdListKeySchema) : Function.Injective schema.key := by
  intro a b h
  have hlist := congrArg String.toList h
  rw [key_toList, key_toList] at hlist
  exact bareKey_inj (List.append_cancel_left hlist)

/-! ## Tasks -/

theorem decodeTask_encodeTask (skh : Namespace) (list : String) :
    IdListKeySchema.decodeTask (IdListKeySchema.encodeTask skh.text list) =
      some (skh.text, list) := by
  have hlist : (IdListKeySchema.encodeTask skh.text list).toList =
      skh.text.toList ++ (':' :: [':'] ++ (escapeComponent list).toList) := by
    simp [IdListKeySchema.encodeTask]
  unfold IdListKeySchema.decodeTask
  rw [hlist, splitOnce_append [':'] skh.colon_not_mem, Option.bind_some]
  simp only [String.ofList_toList, unescapeComponent_escape, Option.map_some]

/-- For every key prefix: the ten key families are disjoint and each is
injective in its arguments, a version tag names its file and its time, and
tasks and components are read back as they were written. -/
theorem key_schema_injective (schema : IdListKeySchema) :
    Function.Injective schema.key ∧
    (∀ a b : IdListMetadata, versionTag a = versionTag b ↔
      a.fileId = b.fileId ∧ a.creationTime = b.creationTime) ∧
    (∀ (skh : Namespace) (list : String),
      IdListKeySchema.decodeTask (IdListKeySchema.encodeTask skh.text list) =
        some (skh.text, list)) ∧
    ∀ s, unescapeComponent (escapeComponent s) = some s := by
  refine ⟨key_injective schema, fun a b => ⟨versionTag_inj, ?_⟩, decodeTask_encodeTask,
    unescapeComponent_escape⟩
  rintro ⟨hfile, htime⟩
  rw [versionTag, versionTag, hfile, htime]

example : (IdListKeySchema.mk "proxy").key (.fwd (companyNamespace 0 0 0) "a:b%" "f@1") =
    "proxy:idlist::fwd::\x7bAAAA::a%3Ab%25\x7d::f@1" := by decide

end ForwardProxy.IdList
