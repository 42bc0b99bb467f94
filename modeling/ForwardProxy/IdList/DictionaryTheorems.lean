/-
ForwardProxy.IdList.DictionaryTheorems — the dictionary hash is the record
`Dict`, and its tokens are never mixed up.

`Represents` relates the two. A list name stands behind the tag `n:`, so no
name is taken for a token field, the counter or the marker. Every command on
the hash is the operation of the record, as long as Lua prints the new
token in full; from there on `Dict.Ok` does the rest. `DictSound` adds what
the users of the dictionary hold: look-ups, replies and caches.
-/
import ForwardProxy.IdList.Dictionary
import ForwardProxy.IdList.LocalityTheorems
import ForwardProxy.IdList.SchemaTheorems

namespace ForwardProxy.IdList

open DictClient

/-! ## Numbers -/

theorem isDigit_of_mem_toString {n : Nat} {c : Char} (h : c ∈ (toString n).toList) :
    c.isDigit = true := by
  rw [Nat.toString_eq_repr, Nat.toList_repr] at h
  exact Nat.isDigit_of_mem_toDigits (by decide) (by decide) h

theorem parseU64_toString {n : Nat} (h : n < 2 ^ 64) : parseU64 (toString n) = some n := by
  have hdigits : ∀ c ∈ (toString n).toList, c.isDigit = true := fun _ => isDigit_of_mem_toString
  have hlist : (toString n).toList = Nat.toDigits 10 n := by
    rw [Nat.toString_eq_repr, Nat.toList_repr]
  -- The first character is a digit and no sign.
  have hplain : dropPlus (toString n).toList = Nat.toDigits 10 n := by
    rw [hlist] at hdigits ⊢
    unfold dropPlus
    split
    · rename_i cs heq
      have hplus := hdigits '+' (by rw [heq]; exact List.mem_cons_self)
      simp at hplus
    · rfl
  unfold parseU64
  simp only [hplain]
  rw [hlist] at hdigits
  have hany : (Nat.toDigits 10 n).any (fun c => !c.isDigit) = false := by
    rw [List.any_eq_false]
    intro c hc
    simp [hdigits c hc]
  have hempty : (Nat.toDigits 10 n).isEmpty = false := by
    simp
  rw [hany, hempty, Nat.ofDigitChars_ten_toDigits, if_neg (by decide), if_pos h]

/-! ## Fields -/

theorem nameField_inj {a b : String} (h : nameField a = nameField b) : a = b := by
  unfold nameField at h
  simpa using h

theorem tokenField_inj {a b : Nat} (h : tokenField a = tokenField b) : a = b := by
  unfold tokenField at h
  have hdigits : toString a = toString b := by simpa using h
  exact toString_nat_inj hdigits

theorem nameField_toList (list : String) : (nameField list).toList = 'n' :: ':' :: list.toList := by
  simp [nameField]

theorem tokenField_toList (t : Nat) : (tokenField t).toList = 't' :: ':' :: (toString t).toList := by
  simp [tokenField]

theorem nameField_ne_tokenField (list : String) (t : Nat) : nameField list ≠ tokenField t := by
  intro h
  have hlist := congrArg String.toList h
  rw [nameField_toList, tokenField_toList] at hlist
  simp at hlist

/-- The fields of the map start with a letter, the reserved ones with an
underscore. -/
theorem nameField_ne_reserved (list : String) :
    nameField list ≠ dictCounterField ∧ nameField list ≠ dictDisabledField := by
  constructor <;> intro h
  · have hlist := congrArg String.toList h
    rw [nameField_toList] at hlist
    simp [dictCounterField] at hlist
  · have hlist := congrArg String.toList h
    rw [nameField_toList] at hlist
    simp [dictDisabledField] at hlist

theorem tokenField_ne_reserved (t : Nat) :
    tokenField t ≠ dictCounterField ∧ tokenField t ≠ dictDisabledField := by
  constructor <;> intro h
  · have hlist := congrArg String.toList h
    rw [tokenField_toList] at hlist
    simp [dictCounterField] at hlist
  · have hlist := congrArg String.toList h
    rw [tokenField_toList] at hlist
    simp [dictDisabledField] at hlist

theorem stripTag_nameField (list : String) : stripTag 'n' (nameField list) = some list := by
  unfold stripTag
  rw [nameField_toList]
  simp

theorem stripTag_tokenField (t : Nat) :
    stripTag 'n' (tokenField t) = none ∧ stripTag 't' (tokenField t) = some (toString t) := by
  unfold stripTag
  rw [tokenField_toList]
  simp only [String.ofList_toList]
  exact ⟨rfl, rfl⟩

theorem stripTag_reserved (tag : Char) (h : tag = 'n' ∨ tag = 't') :
    stripTag tag dictCounterField = none ∧ stripTag tag dictDisabledField = none := by
  rcases h with rfl | rfl
  · exact ⟨by decide, by decide⟩
  · exact ⟨by decide, by decide⟩

/-! ## The hash as a record -/

/-- The hash holds the record `d`, and nothing else. -/
structure Represents (h : RedisHash) (d : Dict) : Prop where
  counter : (h dictCounterField = none ∧ d.counter = 0) ∨
    h dictCounterField = some (toString d.counter)
  token : ∀ list, h (nameField list) = (d.token list).map toString
  name : ∀ t, h (tokenField t) = d.name t
  known : ∀ field value, h field = some value → field = dictCounterField ∨
    field = dictDisabledField ∨ (∃ list, field = nameField list) ∨ ∃ t, field = tokenField t

/-- A dictionary of tokens Lua prints in full. -/
structure Dict.Small (d : Dict) : Prop where
  ok : d.Ok fun _ => ∅
  counter : d.counter < 10 ^ 14

variable {lua : LuaNumbers} {h : RedisHash} {d : Dict}

theorem represents_empty : Represents (fun _ => none) {} :=
  ⟨.inl ⟨rfl, rfl⟩, fun _ => rfl, fun _ => rfl, by simp⟩

theorem small_empty : Dict.Small {} := ⟨⟨by simp, by simp, by simp, by simp⟩, by decide⟩

theorem Represents.counter_eq (hrep : Represents h d) (hsmall : d.counter < 10 ^ 14) :
    h.counter = d.counter := by
  unfold RedisHash.counter
  rcases hrep.counter with ⟨hnone, hzero⟩ | hsome
  · simp [hnone, hzero]
  · rw [hsome, Option.bind_some, parseU64_toString (by omega)]
    rfl

theorem Represents.getToken (hrep : Represents h d) (hsmall : d.Small) (list : String) :
    DictClient.getToken h list = .ok (d.token list) := by
  unfold DictClient.getToken
  rw [hrep.token]
  cases htoken : d.token list with
  | none => rfl
  | some t =>
    have hle := hsmall.ok.token_le list t htoken
    have hlt := hsmall.counter
    simp only [Option.map_some]
    rw [parseU64_toString (by omega)]

/-- A write of the marker. -/
theorem Represents.setMarker (hrep : Represents h d) (value : Option String) :
    Represents (Function.update h dictDisabledField value) d := by
  refine ⟨?_, ?_, ?_, ?_⟩
  · have hne : dictCounterField ≠ dictDisabledField := by decide
    rw [Function.update_of_ne hne]
    exact hrep.counter
  · intro list
    rw [Function.update_of_ne (nameField_ne_reserved list).2]
    exact hrep.token list
  · intro t
    rw [Function.update_of_ne (tokenField_ne_reserved t).2]
    exact hrep.name t
  · intro field v hv
    by_cases hfield : field = dictDisabledField
    · exact .inr (.inl hfield)
    · rw [Function.update_of_ne hfield] at hv
      exact hrep.known field v hv

/-- The script, for a list that has a token. -/
theorem Represents.alloc_existing (hrep : Represents h d) (hsmall : d.Small) {list : String}
    {t : Nat} (htoken : d.token list = some t) :
    DictClient.getOrAllocateToken lua h list = (some t, h) := by
  have hle := hsmall.ok.token_le list t htoken
  have hlt := hsmall.counter
  unfold DictClient.getOrAllocateToken allocTokenScript
  rw [hrep.token, htoken]
  simp only [Option.map_some]
  rw [parseU64_toString (by omega)]

/-- The hash after a new allocation. -/
def allocated (h : RedisHash) (list : String) (token : Nat) : RedisHash :=
  ((h.hset dictCounterField (toString token)).hset (nameField list) (toString token)).hset
    (tokenField token) list

theorem Represents.hincrby (hrep : Represents h d) (hlt : d.counter < 10 ^ 14) :
    h.hincrby dictCounterField =
      some (d.counter + 1, h.hset dictCounterField (toString (d.counter + 1))) := by
  unfold RedisHash.hincrby
  rcases hrep.counter with ⟨hnone, hzero⟩ | hsome
  · rw [hnone, hzero]
    rfl
  · rw [hsome]
    simp only
    rw [parseU64_toString (by omega)]
    simp only
    rw [if_pos (by omega)]

/-- The script for a new list, whatever Lua makes of the number. -/
theorem Represents.alloc_any (hrep : Represents h d) {list : String} (htoken : d.token list = none)
    (hlt : d.counter < 10 ^ 14) : DictClient.getOrAllocateToken lua h list =
      (parseU64 (lua.tostring (d.counter + 1)),
        ((h.hset dictCounterField (toString (d.counter + 1))).hset (nameField list)
          (lua.arg (d.counter + 1))).hset ("t:" ++ lua.tostring (d.counter + 1)) list) := by
  unfold DictClient.getOrAllocateToken allocTokenScript
  rw [hrep.token, htoken, hrep.hincrby hlt]
  rfl

/-- The script for a new list. -/
theorem Represents.alloc_new (hrep : Represents h d) {list : String} (htoken : d.token list = none)
    (hlt : d.counter + 1 < 10 ^ 14) :
    DictClient.getOrAllocateToken lua h list =
      (some (d.counter + 1), allocated h list (d.counter + 1)) := by
  rw [hrep.alloc_any htoken (by omega), lua.tostring_eq _ hlt, lua.arg_eq _ hlt,
    parseU64_toString (by omega)]
  rfl

theorem Represents.allocated (hrep : Represents h d) {list : String} (htoken : d.token list = none) :
    Represents (allocated h list (d.counter + 1)) (d.alloc list).2 := by
  have halloc : (d.alloc list).2 = { d with
      counter := d.counter + 1
      token := Function.update d.token list (some (d.counter + 1))
      name := Function.update d.name (d.counter + 1) (some list) } := by
    unfold Dict.alloc
    rw [htoken]
  rw [halloc]
  unfold IdList.allocated RedisHash.hset
  refine ⟨?_, ?_, ?_, ?_⟩
  · rw [Function.update_of_ne (tokenField_ne_reserved _).1.symm,
      Function.update_of_ne (nameField_ne_reserved _).1.symm, Function.update_self]
    exact .inr rfl
  · intro l
    rw [Function.update_of_ne (nameField_ne_tokenField _ _)]
    by_cases hl : l = list
    · subst hl
      simp
    · have hfield : nameField l ≠ nameField list := fun heq => hl (nameField_inj heq)
      simp only [Function.update_of_ne hfield, Function.update_of_ne hl,
        Function.update_of_ne (nameField_ne_reserved l).1]
      exact hrep.token l
  · intro t
    by_cases ht : t = d.counter + 1
    · subst ht
      simp
    · have hfield : tokenField t ≠ tokenField (d.counter + 1) := fun heq => ht (tokenField_inj heq)
      simp only [Function.update_of_ne hfield, Function.update_of_ne ht,
        Function.update_of_ne (nameField_ne_tokenField list t).symm,
        Function.update_of_ne (tokenField_ne_reserved t).1]
      exact hrep.name t
  · intro field value hv
    by_cases htf : field = tokenField (d.counter + 1)
    · exact .inr (.inr (.inr ⟨_, htf⟩))
    by_cases hnf : field = nameField list
    · exact .inr (.inr (.inl ⟨_, hnf⟩))
    by_cases hcf : field = dictCounterField
    · exact .inl hcf
    rw [Function.update_of_ne htf, Function.update_of_ne hnf, Function.update_of_ne hcf] at hv
    exact hrep.known field value hv

/-- The HDEL of a removal. -/
theorem Represents.removeFields (hrep : Represents h d) (list : String) (token : Option Nat) :
    Represents (DictClient.removeFields h list token) (d.hdel list token) := by
  have hname : Represents (Function.update h (nameField list) none) (d.hdel list none) := by
    refine ⟨?_, ?_, ?_, ?_⟩
    · rw [Function.update_of_ne (nameField_ne_reserved list).1.symm]
      exact hrep.counter
    · intro l
      by_cases hl : l = list
      · subst hl
        simp [Dict.hdel]
      · have hfield : nameField l ≠ nameField list := fun heq => hl (nameField_inj heq)
        simp only [Dict.hdel, Function.update_of_ne hfield, Function.update_of_ne hl]
        exact hrep.token l
    · intro t
      rw [Function.update_of_ne (nameField_ne_tokenField list t).symm]
      exact hrep.name t
    · intro field value hv
      by_cases hfield : field = nameField list
      · exact .inr (.inr (.inl ⟨list, hfield⟩))
      · rw [Function.update_of_ne hfield] at hv
        exact hrep.known field value hv
  cases token with
  | none => exact hname
  | some t =>
    show Represents (Function.update (Function.update h (nameField list) none) (tokenField t) none) _
    refine ⟨?_, ?_, ?_, ?_⟩
    · rw [Function.update_of_ne (tokenField_ne_reserved t).1.symm]
      exact hname.counter
    · intro l
      rw [Function.update_of_ne (nameField_ne_tokenField l t)]
      exact hname.token l
    · intro t'
      by_cases ht : t' = t
      · subst ht
        simp [Dict.hdel]
      · have hfield : tokenField t' ≠ tokenField t := fun heq => ht (tokenField_inj heq)
        simp only [Dict.hdel, Function.update_of_ne hfield, Function.update_of_ne ht]
        exact hname.name t'
    · intro field value hv
      by_cases hfield : field = tokenField t
      · exact .inr (.inr (.inr ⟨t, hfield⟩))
      · rw [Function.update_of_ne hfield] at hv
        exact hname.known field value hv

/-! ## Snapshots -/

/-- A token field of a reply names the list its token was issued for. -/
def FieldsIssued (issued : List (Nat × String)) (fields : List (String × String)) : Prop :=
  ∀ t name, (tokenField t, name) ∈ fields → (t, name) ∈ issued

/-- A cache names the lists its tokens were issued for. -/
def CacheIssued (issued : List (Nat × String)) (snap : Snapshot) : Prop :=
  ∀ t name, snap.tokenToName t = some name → (t, name) ∈ issued

variable {issued issued' : List (Nat × String)} {fields : List (String × String)} {snap : Snapshot}

/-- A field of a dictionary hash, read into a snapshot. -/
theorem cacheIssued_field (hsnap : CacheIssued issued snap) {entry : String × String}
    (hknown : entry.1 = dictCounterField ∨ entry.1 = dictDisabledField ∨
      (∃ list, entry.1 = nameField list) ∨ ∃ t, t < 2 ^ 64 ∧ entry.1 = tokenField t)
    (hissued : ∀ t, entry.1 = tokenField t → (t, entry.2) ∈ issued) :
    CacheIssued issued (snapshotField snap entry) := by
  unfold snapshotField
  rcases hknown with hfield | hfield | ⟨list, hfield⟩ | ⟨t, hlt, hfield⟩
  · rw [hfield, (stripTag_reserved 'n' (.inl rfl)).1, (stripTag_reserved 't' (.inr rfl)).1]
    exact hsnap
  · rw [hfield, (stripTag_reserved 'n' (.inl rfl)).2, (stripTag_reserved 't' (.inr rfl)).2]
    exact hsnap
  · rw [hfield, stripTag_nameField]
    simp only
    split
    · exact hsnap
    · exact hsnap
  · rw [hfield, (stripTag_tokenField t).1, (stripTag_tokenField t).2]
    simp only
    rw [parseU64_toString hlt]
    intro t' name hname
    simp only [Function.update_apply] at hname
    split at hname
    · rename_i ht
      obtain rfl := Option.some.inj hname
      rw [ht]
      exact hissued t hfield
    · exact hsnap t' name hname

theorem cacheIssued_snapshot (hknown : ∀ entry ∈ fields, entry.1 = dictCounterField ∨
      entry.1 = dictDisabledField ∨ (∃ list, entry.1 = nameField list) ∨
      ∃ t, t < 2 ^ 64 ∧ entry.1 = tokenField t)
    (hissued : FieldsIssued issued fields) : CacheIssued issued (snapshot fields) := by
  have hfold : ∀ (rest : List (String × String)) (snap : Snapshot), (∀ entry ∈ rest, entry ∈ fields) →
      CacheIssued issued snap → CacheIssued issued (rest.foldl snapshotField snap) := by
    intro rest
    induction rest with
    | nil =>
      intro snap _ hsnap
      exact hsnap
    | cons entry rest ih =>
      intro snap hrest hsnap
      have hmem : entry ∈ fields := hrest entry List.mem_cons_self
      refine ih _ (fun e he => hrest e (List.mem_cons_of_mem _ he)) ?_
      refine cacheIssued_field hsnap (hknown entry hmem) fun t ht => ?_
      refine hissued t entry.2 ?_
      rw [← ht]
      exact hmem
  refine hfold fields {} (fun _ h => h) ?_
  intro t name hname
  simp at hname

theorem cacheIssued_merge (hsnap : CacheIssued issued snap) {t : Nat} {name : String}
    (hissued : (t, name) ∈ issued) : CacheIssued issued (snap.merge t name) := by
  intro t' name' hname
  simp only [Snapshot.merge, Function.update_apply] at hname
  split at hname
  · rename_i ht
    obtain rfl := Option.some.inj hname
    rw [ht]
    exact hissued
  · exact hsnap t' name' hname

/-! ## Whole runs -/

/-- What a reply of HGETALL is known to hold from then on. -/
structure ReplySound (issued : List (Nat × String)) (fields : List (String × String)) : Prop where
  known : ∀ entry ∈ fields, entry.1 = dictCounterField ∨ entry.1 = dictDisabledField ∨
    (∃ list, entry.1 = nameField list) ∨ ∃ t, t < 2 ^ 64 ∧ entry.1 = tokenField t
  issued : FieldsIssued issued fields

/-- The invariant, with the record `d` the hash holds. -/
structure DictSound {ι : Type} (s : DictSystem ι) (d : Dict) : Prop where
  represents : Represents s.hash d
  small : d.Small
  current : ∀ t name, d.name t = some name → (t, name) ∈ s.issued
  bounded : ∀ t name, (t, name) ∈ s.issued → t ≤ d.counter
  unique : ∀ t name name', (t, name) ∈ s.issued → (t, name') ∈ s.issued → name = name'
  removing : ∀ list token, s.removing list = some token → d.token list = token
  loaded : ∀ reader fields, (reader, fields) ∈ s.loaded → ReplySound s.issued fields
  found : ∀ reader t name, (reader, t, name) ∈ s.found → (t, name) ∈ s.issued
  cache : ∀ reader, CacheIssued s.issued (s.cache reader)

variable {ι : Type} {s s' : DictSystem ι}

theorem dictSound_start : DictSound ({} : DictSystem ι) {} := by
  refine ⟨represents_empty, small_empty, ?_, ?_, ?_, ?_, ?_, ?_, ?_⟩
  all_goals simp [CacheIssued]

theorem ReplySound.mono (hsub : ∀ e ∈ issued, e ∈ issued') (h : ReplySound issued fields) :
    ReplySound issued' fields :=
  ⟨h.known, fun t name hmem => hsub _ (h.issued t name hmem)⟩

/-- The token of a known list is issued again, for the same list. -/
theorem dictSound_existing {list : String} {t : Nat} (h : DictSound s d)
    (htoken : d.token list = some t) :
    DictSound { s with issued := (t, list) :: s.issued } d := by
  have hissued : (t, list) ∈ s.issued := h.current t list (h.small.ok.name_of_token list t htoken)
  have hmem : ∀ e, e ∈ (t, list) :: s.issued ↔ e ∈ s.issued := by
    intro e
    simp only [List.mem_cons, or_iff_right_iff_imp]
    rintro rfl
    exact hissued
  refine ⟨h.represents, h.small, ?_, ?_, ?_, h.removing, ?_, ?_, ?_⟩
  · intro t' name hname
    exact (hmem _).mpr (h.current t' name hname)
  · intro t' name hname
    exact h.bounded t' name ((hmem _).mp hname)
  · intro t' name name' hname hname'
    exact h.unique t' name name' ((hmem _).mp hname) ((hmem _).mp hname')
  · intro reader fields hfields
    exact (h.loaded reader fields hfields).mono fun e he => (hmem e).mpr he
  · intro reader t' name hfound
    exact (hmem _).mpr (h.found reader t' name hfound)
  · intro reader t' name hname
    exact (hmem _).mpr (h.cache reader t' name hname)

/-- A new token is larger than every token issued before. -/
theorem dictSound_new {list : String} (h : DictSound s d) (hfree : s.removing list = none)
    (htoken : d.token list = none) (hlt : d.counter + 1 < 10 ^ 14) :
    DictSound { s with
      hash := allocated s.hash list (d.counter + 1)
      issued := (d.counter + 1, list) :: s.issued } (d.alloc list).2 := by
  have halloc : (d.alloc list).2.counter = d.counter + 1 ∧
      (d.alloc list).2.name = Function.update d.name (d.counter + 1) (some list) ∧
      (d.alloc list).2.token = Function.update d.token list (some (d.counter + 1)) := by
    unfold Dict.alloc
    rw [htoken]
    exact ⟨rfl, rfl, rfl⟩
  have hfresh : ∀ name, (d.counter + 1, name) ∈ s.issued → False := by
    intro name hold
    have hle := h.bounded _ name hold
    omega
  have hold : ∀ e ∈ s.issued, e ∈ (d.counter + 1, list) :: s.issued :=
    fun _ => List.mem_cons_of_mem _
  refine ⟨h.represents.allocated htoken, ⟨h.small.ok.alloc list, ?_⟩, ?_, ?_, ?_, ?_, ?_, ?_, ?_⟩
  · rw [halloc.1]
    exact hlt
  · intro t name hname
    rw [halloc.2.1, Function.update_apply] at hname
    split at hname
    · rename_i ht
      obtain rfl := Option.some.inj hname
      rw [ht]
      exact List.mem_cons_self
    · exact hold _ (h.current t name hname)
  · intro t name hname
    rw [halloc.1]
    rcases List.mem_cons.mp hname with heq | hmem
    · simp only [Prod.mk.injEq] at heq
      omega
    · have hle := h.bounded t name hmem
      omega
  · intro t name name' hname hname'
    rcases List.mem_cons.mp hname with heq | hmem <;> rcases List.mem_cons.mp hname' with heq' | hmem'
    · simp only [Prod.mk.injEq] at heq heq'
      rw [heq.2, heq'.2]
    · simp only [Prod.mk.injEq] at heq
      rw [heq.1] at hmem'
      exact (hfresh name' hmem').elim
    · simp only [Prod.mk.injEq] at heq'
      rw [heq'.1] at hmem
      exact (hfresh name hmem).elim
    · exact h.unique t name name' hmem hmem'
  · intro l token hremoving
    have hl : l ≠ list := by
      rintro rfl
      simp only at hremoving
      rw [hfree] at hremoving
      simp at hremoving
    rw [halloc.2.2, Function.update_of_ne hl]
    exact h.removing l token hremoving
  · intro reader fields hfields
    exact (h.loaded reader fields hfields).mono hold
  · intro reader t name hfound
    exact hold _ (h.found reader t name hfound)
  · intro reader t name hname
    exact hold _ (h.cache reader t name hname)

theorem dictSound_alloc {list : String} (h : DictSound s d) (hfree : s.removing list = none)
    (hguard : s.hash (nameField list) = none → s.hash.counter + 1 < 10 ^ 14) :
    ∃ d', DictSound { s with
      hash := (DictClient.getOrAllocateToken lua s.hash list).2
      issued := ((DictClient.getOrAllocateToken lua s.hash list).1.map (·, list)).toList ++
        s.issued } d' := by
  cases htoken : d.token list with
  | some t =>
    rw [h.represents.alloc_existing h.small htoken]
    exact ⟨d, dictSound_existing h htoken⟩
  | none =>
    have hname : s.hash (nameField list) = none := by
      rw [h.represents.token, htoken]
      rfl
    have hlt : d.counter + 1 < 10 ^ 14 := by
      rw [← h.represents.counter_eq h.small.counter]
      exact hguard hname
    rw [h.represents.alloc_new htoken hlt]
    exact ⟨_, dictSound_new h hfree htoken hlt⟩

theorem dictSound_cleanup {list : String} {token : Option Nat} (h : DictSound s d)
    (hremoving : s.removing list = some token) :
    DictSound { s with
      hash := DictClient.removeFields s.hash list token
      removing := Function.update s.removing list none } (d.hdel list token) := by
  have htoken : d.token list = token := h.removing list token hremoving
  have hname : ∀ t name, (d.hdel list token).name t = some name → d.name t = some name := by
    intro t name hname
    cases token with
    | none => exact hname
    | some t' =>
      simp only [Dict.hdel, Function.update_apply] at hname
      split at hname
      · simp at hname
      · exact hname
  have hok : (d.hdel list token).Ok fun _ => ∅ := by
    rw [← htoken]
    exact h.small.ok.hdel list
  refine ⟨h.represents.removeFields list token, ⟨hok, h.small.counter⟩, ?_, h.bounded, h.unique, ?_,
    h.loaded, h.found, h.cache⟩
  · intro t name hmem
    exact h.current t name (hname t name hmem)
  · intro l tok hl
    simp only [Function.update_apply] at hl
    split at hl
    · simp at hl
    · rename_i hne
      show Function.update d.token list none l = tok
      rw [Function.update_of_ne hne]
      exact h.removing l tok hl

/-- What HGETALL replies of a sound dictionary. -/
theorem replySound_load (h : DictSound s d) (hreply : s.hash.Hgetall fields) :
    ReplySound s.issued fields := by
  constructor
  · intro entry hentry
    have hvalue := (hreply.mem entry.1 entry.2).mp hentry
    rcases h.represents.known entry.1 entry.2 hvalue with hf | hf | hf | ⟨t, hf⟩
    · exact .inl hf
    · exact .inr (.inl hf)
    · exact .inr (.inr (.inl hf))
    · have hname : d.name t = some entry.2 := by
        rw [← h.represents.name, ← hf]
        exact hvalue
      have hle := h.bounded t _ (h.current t _ hname)
      have hlt := h.small.counter
      exact .inr (.inr (.inr ⟨t, by omega, hf⟩))
  · intro t name hmem
    refine h.current t name ?_
    rw [← h.represents.name]
    exact (hreply.mem _ _).mp hmem

variable [DecidableEq ι]

theorem dictSound_step (h : DictSound s d) (hstep : DictStep lua True s s') :
    ∃ d', DictSound s' d' := by
  cases hstep with
  | alloc list hfree hguard => exact dictSound_alloc h hfree (hguard trivial)
  | lookup list token hfree hget =>
    refine ⟨d, { h with removing := ?_ }⟩
    intro l tok hl
    simp only [Function.update_apply] at hl
    split at hl
    · rename_i hlist
      obtain rfl := Option.some.inj hl
      rw [h.represents.getToken h.small, Except.ok.injEq] at hget
      rw [hlist]
      exact hget
    · exact h.removing l tok hl
  | cleanup list token hremoving => exact ⟨_, dictSound_cleanup h hremoving⟩
  | abandon list =>
    refine ⟨d, { h with removing := ?_ }⟩
    intro l tok hl
    simp only [Function.update_apply] at hl
    split at hl
    · simp at hl
    · exact h.removing l tok hl
  | mark => exact ⟨d, { h with represents := h.represents.setMarker (some "1") }⟩
  | unmark => exact ⟨d, { h with represents := h.represents.setMarker none }⟩
  | load reader fields hreply =>
    have hsound : ReplySound s.issued fields := replySound_load h hreply
    refine ⟨d, { h with loaded := ?_ }⟩
    intro reader' fields' hmem
    rcases List.mem_cons.mp hmem with heq | hmem
    · obtain ⟨rfl, rfl⟩ := Prod.mk.inj heq
      exact hsound
    · exact h.loaded reader' fields' hmem
  | refresh reader fields hloaded =>
    refine ⟨d, { h with cache := ?_ }⟩
    intro reader'
    simp only [Function.update_apply]
    split
    · have hsound := h.loaded reader fields hloaded
      exact cacheIssued_snapshot hsound.known hsound.issued
    · exact h.cache reader'
  | ask reader token name hreply =>
    refine ⟨d, { h with found := ?_ }⟩
    intro reader' t' name' hmem
    rcases List.mem_cons.mp hmem with heq | hmem
    · simp only [Prod.mk.injEq] at heq
      obtain ⟨_, rfl, rfl⟩ := heq
      refine h.current _ _ ?_
      rw [← h.represents.name]
      exact hreply
    · exact h.found reader' t' name' hmem
  | merge reader token name hfound =>
    refine ⟨d, { h with cache := ?_ }⟩
    intro reader'
    simp only [Function.update_apply]
    split
    · exact cacheIssued_merge (h.cache reader) (h.found reader token name hfound)
    · exact h.cache reader'

theorem reach_dictSound (hrun : Relation.ReflTransGen (DictStep lua True) ({} : DictSystem ι) s) :
    ∃ d, DictSound s d := by
  induction hrun with
  | refl => exact ⟨{}, dictSound_start⟩
  | tail _ hstep ih =>
    obtain ⟨d, hd⟩ := ih
    exact dictSound_step hd hstep

/-- The token in the name field of a list. -/
def tokenIn (h : RedisHash) (list : String) : Option Nat := (h (nameField list)).bind parseU64

/-- **Token dictionary integrity**, while every new token is one Lua prints
in full: the name fields and the token fields are inverse to each other, the
counter is at least every token issued, no token is issued for two names,
and no cache of a reader names a list its token was not issued for. -/
theorem dictionary_integrity
    (hrun : Relation.ReflTransGen (DictStep lua True) ({} : DictSystem ι) s) :
    (∀ list t, tokenIn s.hash list = some t ↔ s.hash (tokenField t) = some list) ∧
    (∀ t name, (t, name) ∈ s.issued → t ≤ s.hash.counter) ∧
    (∀ t name name', (t, name) ∈ s.issued → (t, name') ∈ s.issued → name = name') ∧
    ∀ reader t name, (s.cache reader).tokenToName t = some name →
      (t, name) ∈ s.issued ∧ ∀ name', (t, name') ∈ s.issued → name' = name := by
  obtain ⟨d, h⟩ := reach_dictSound hrun
  refine ⟨?_, ?_, h.unique, ?_⟩
  · intro list t
    have htoken : tokenIn s.hash list = d.token list := by
      unfold tokenIn
      rw [h.represents.token]
      cases htoken : d.token list with
      | none => rfl
      | some t' =>
        have hle := h.small.ok.token_le list t' htoken
        have hlt := h.small.counter
        rw [Option.map_some, Option.bind_some, parseU64_toString (by omega)]
    rw [htoken, h.represents.name]
    exact ⟨h.small.ok.name_of_token list t, h.small.ok.token_of_name t list⟩
  · intro t name hmem
    rw [h.represents.counter_eq h.small.counter]
    exact h.bounded t name hmem
  · intro reader t name hname
    have hmem := h.cache reader t name hname
    exact ⟨hmem, fun name' hmem' => h.unique t name' name hmem' hmem⟩

/-! ## From 14 digits on -/

/-- Lua's printing, as far as the runs below go. -/
def lua14 : LuaNumbers where
  tostring n := if n < 10 ^ 14 then toString n else "1e+14"
  arg n := toString n
  tostring_eq n h := by rw [if_pos h]
  arg_eq _ _ := rfl

/-- A list named like the counter is removed and comes back; a reader has it
under its old token. -/
theorem dictionary_integrity_readded : ∃ s : DictSystem Unit,
    s.issued = [(2, "__counter"), (1, "__counter")] ∧
    (s.cache ()).tokenToName 1 = some "__counter" ∧
    ∀ name, (1, name) ∈ s.issued → name = "__counter" := by
  have hfirst : Relation.ReflTransGen (DictStep lua14 True) ({} : DictSystem Unit) _ :=
    .single (.alloc "__counter" rfl fun _ _ => by decide +kernel)
  have hasked := hfirst.tail (.ask () 1 "__counter" (by decide +kernel))
  have hmerged := hasked.tail (.merge () 1 "__counter" List.mem_cons_self)
  have hlooked := hmerged.tail (.lookup "__counter" (some 1) rfl (by decide +kernel))
  have hremoved := hlooked.tail (.cleanup "__counter" (some 1) rfl)
  have hagain := hremoved.tail (.alloc "__counter" rfl fun _ _ => by decide +kernel)
  exact ⟨_, by decide +kernel, by decide +kernel,
    ((dictionary_integrity hagain).2.2.2 () 1 "__counter" (by decide +kernel)).2⟩

/-- After `n` allocations, each of a list named like its token. -/
theorem exists_counter (n : Nat) (hn : n < 10 ^ 14) :
    ∃ s : DictSystem Unit, Relation.ReflTransGen (DictStep lua14 False) {} s ∧
      ∃ d, DictSound s d ∧ d.counter = n ∧ (∀ list, s.removing list = none) ∧
        ∀ list t, d.token list = some t → list = toString t := by
  induction n with
  | zero => exact ⟨{}, .refl, {}, dictSound_start, rfl, fun _ => rfl, by simp⟩
  | succ n ih =>
    obtain ⟨s, hrun, d, hsound, hcounter, hfree, hnames⟩ := ih (by omega)
    have htoken : d.token (toString (n + 1)) = none := by
      by_contra hne
      obtain ⟨t, ht⟩ := Option.ne_none_iff_exists'.mp hne
      have hle := hsound.small.ok.token_le _ t ht
      have heq := toString_nat_inj (hnames _ t ht)
      omega
    have hlt : d.counter + 1 < 10 ^ 14 := by omega
    have hnew := dictSound_new hsound (hfree _) htoken hlt
    have hstep : DictStep lua14 False s _ := .alloc (toString (n + 1)) (hfree _) False.elim
    rw [hsound.represents.alloc_new htoken hlt] at hstep
    refine ⟨_, hrun.tail hstep, _, hnew, ?_, hfree, ?_⟩
    · unfold Dict.alloc
      rw [htoken]
      simp only
      omega
    · intro list t ht
      unfold Dict.alloc at ht
      rw [htoken] at ht
      simp only [Function.update_apply] at ht
      split at ht
      · rename_i hlist
        rw [hlist, ← Option.some.inj ht, hcounter]
      · exact hnames list t ht

/-- Without the condition the fields do not stay inverse: the token of 15
digits has a name field, but its token field has another name. -/
theorem dictionary_of_long_tokens : ¬ ∀ s : DictSystem Unit,
    Relation.ReflTransGen (DictStep lua14 False) {} s →
    ∀ list t, tokenIn s.hash list = some t ↔ s.hash (tokenField t) = some list := by
  intro hclaim
  obtain ⟨s, hrun, d, hsound, hcounter, hfree, hnames⟩ := exists_counter (10 ^ 14 - 1) (by omega)
  have htoken : d.token "new" = none := by
    by_contra hne
    obtain ⟨t, ht⟩ := Option.ne_none_iff_exists'.mp hne
    have hdigit := isDigit_of_mem_toString (n := t) (c := 'n')
    rw [← hnames _ t ht] at hdigit
    simp at hdigit
  have hnext : d.counter + 1 = 10 ^ 14 := by omega
  have hstep : DictStep lua14 False s _ := .alloc "new" (hfree _) False.elim
  have hinverse : tokenIn (DictClient.getOrAllocateToken lua14 s.hash "new").2 "new" =
        some (10 ^ 14) ↔
      (DictClient.getOrAllocateToken lua14 s.hash "new").2 (tokenField (10 ^ 14)) = some "new" :=
    hclaim _ (hrun.tail hstep) "new" (10 ^ 14)
  have hhash : (DictClient.getOrAllocateToken lua14 s.hash "new").2 =
      ((s.hash.hset dictCounterField (toString (d.counter + 1))).hset (nameField "new")
        (lua14.arg (d.counter + 1))).hset ("t:" ++ lua14.tostring (d.counter + 1)) "new" :=
    congrArg Prod.snd (hsound.represents.alloc_any htoken (by omega))
  rw [hhash, hnext] at hinverse
  have hlong : ("t:" ++ lua14.tostring (10 ^ 14)) = "t:1e+14" := by decide +kernel
  have hfield : tokenField (10 ^ 14) ≠ "t:1e+14" := by decide +kernel
  have hname : nameField "new" ≠ "t:1e+14" := by decide +kernel
  have hparse : parseU64 (lua14.arg (10 ^ 14)) = some (10 ^ 14) :=
    parseU64_toString (by omega)
  rw [hlong] at hinverse
  unfold tokenIn RedisHash.hset at hinverse
  rw [Function.update_of_ne hname, Function.update_self, Option.bind_some, hparse,
    Function.update_of_ne hfield, Function.update_of_ne (nameField_ne_tokenField _ _).symm,
    Function.update_of_ne (tokenField_ne_reserved _).1, hsound.represents.name] at hinverse
  -- The number was not issued before, so its own field is empty.
  have hissued := hsound.current (10 ^ 14) "new" (hinverse.mp rfl)
  have hle := hsound.bounded _ _ hissued
  omega

end ForwardProxy.IdList
