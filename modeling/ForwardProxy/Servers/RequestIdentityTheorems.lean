/-
ForwardProxy.Servers.RequestIdentityTheorems — which requests share a
context.

The canonical form of a list of encodings is given by two bits, whether
statsig-br and whether gzip are in it (`canonicalizeEncodings_eq`). A header
has an encoding if one of its tokens names it and does not refuse it
(`Accepts`), and the tokens are those between the commas of all lines; so
the layout of the headers does not matter (`HeaderEdit`).

The cache never replaces an entry, so a call that found nothing under the
read lock gets what another one may have inserted before it.
-/
import ForwardProxy.Servers.RequestIdentity

namespace ForwardProxy.Servers

open ForwardProxy.Datastore

/-! ## The canonical form -/

def canonicalForm : Bool → Bool → List CompressionEncoder
  | true, true => [.statsigBrotli, .gzip]
  | true, false => [.statsigBrotli]
  | false, true => [.gzip]
  | false, false => [.plainText]

theorem canonicalForm_inj {a b c d : Bool} (h : canonicalForm a b = canonicalForm c d) :
    a = c ∧ b = d := by
  revert a b c d
  decide

theorem encodingPriority_inj {a b : CompressionEncoder}
    (h : encodingPriority a = encodingPriority b) : a = b := by
  cases a <;> cases b <;> first | rfl | exact absurd h (by decide)

/-- The order that the encodings are sorted by. -/
def ByPriority (a b : CompressionEncoder) : Prop := encodingPriority a ≤ encodingPriority b

instance : DecidableRel ByPriority := fun _ _ => inferInstanceAs (Decidable (_ ≤ _))

instance : Std.Antisymm ByPriority := ⟨fun _ _ h h' => encodingPriority_inj (Nat.le_antisymm h h')⟩

instance : IsTrans CompressionEncoder ByPriority := ⟨fun _ _ _ h h' => Nat.le_trans h h'⟩

instance : Std.Total ByPriority := ⟨fun _ _ => Nat.le_total _ _⟩

/-- Sorting puts repetitions next to each other, so all but one go. -/
theorem sorted_deduped (encodings : List CompressionEncoder) :
    (encodings.insertionSort ByPriority).destutter (· ≠ ·) =
      (encodings.insertionSort ByPriority).dedup :=
  (List.pairwise_insertionSort ByPriority encodings).destutter_eq_dedup

theorem mem_sorted_deduped {encodings : List CompressionEncoder} {e : CompressionEncoder} :
    e ∈ (encodings.insertionSort ByPriority).destutter (· ≠ ·) ↔ e ∈ encodings := by
  rw [sorted_deduped, List.mem_dedup, List.mem_insertionSort]

/-- A sorted list without repetitions is given by its members. -/
theorem retained_eq (encodings : List CompressionEncoder) :
    ((encodings.insertionSort ByPriority).destutter (· ≠ ·)).filter
        (fun e => e = .statsigBrotli ∨ e = .gzip) =
      [CompressionEncoder.statsigBrotli, .gzip].filter (· ∈ encodings) := by
  have hsorted := (List.pairwise_insertionSort ByPriority encodings).sublist
    ((List.filter_sublist (p := fun e => e = .statsigBrotli ∨ e = .gzip)).trans
      (List.destutter_sublist (R := (· ≠ ·)) _))
  have hsorted' : ([CompressionEncoder.statsigBrotli, .gzip].filter (· ∈ encodings)).Pairwise
      ByPriority := List.Pairwise.filter _ (by decide)
  refine List.Perm.eq_of_pairwise' hsorted hsorted' ?_
  refine (List.perm_ext_iff_of_nodup ?_ ?_).mpr ?_
  · rw [sorted_deduped]
    exact (List.nodup_dedup _).filter _
  · exact List.Nodup.filter _ (by decide)
  · intro e
    simp only [List.mem_filter, mem_sorted_deduped, decide_eq_true_eq, List.mem_cons,
      List.not_mem_nil, or_false]
    tauto

theorem canonicalizeEncodings_eq (encodings : List CompressionEncoder) :
    canonicalizeEncodings encodings =
      canonicalForm (decide (.statsigBrotli ∈ encodings)) (decide (.gzip ∈ encodings)) := by
  have hdef : canonicalizeEncodings encodings =
      (fun retained : List CompressionEncoder => if retained.isEmpty then [.plainText] else retained)
        (((encodings.insertionSort ByPriority).destutter (· ≠ ·)).filter
          fun e => e = .statsigBrotli ∨ e = .gzip) := rfl
  rw [hdef, retained_eq]
  by_cases hbr : CompressionEncoder.statsigBrotli ∈ encodings <;>
    by_cases hgzip : CompressionEncoder.gzip ∈ encodings <;>
    simp [hbr, hgzip, canonicalForm]

theorem canonicalizeEncodings_idem (encodings : List CompressionEncoder) :
    canonicalizeEncodings (canonicalizeEncodings encodings) = canonicalizeEncodings encodings := by
  rw [canonicalizeEncodings_eq encodings]
  cases decide (.statsigBrotli ∈ encodings) <;> cases decide (.gzip ∈ encodings) <;> decide

theorem canonicalizeEncodings_eq_iff {encodings encodings' : List CompressionEncoder} :
    canonicalizeEncodings encodings = canonicalizeEncodings encodings' ↔
      ∀ e ∈ [CompressionEncoder.statsigBrotli, .gzip], e ∈ encodings ↔ e ∈ encodings' := by
  rw [canonicalizeEncodings_eq, canonicalizeEncodings_eq]
  constructor
  · intro h
    simpa using canonicalForm_inj h
  · intro h
    simp only [List.mem_cons, List.not_mem_nil, or_false, forall_eq_or_imp, forall_eq] at h
    rw [decide_eq_decide.mpr h.1, decide_eq_decide.mpr h.2]

/-! ## Tokens -/

theorem splitOn_intercalate_comma {values : List (List Char)} (h : values ≠ []) :
    ([','].intercalate values).splitOn ',' = values.flatMap fun value => value.splitOn ',' := by
  induction values with
  | nil => exact absurd rfl h
  | cons value rest ih =>
    cases rest with
    | nil => simp
    | cons next rest =>
      rw [List.intercalate_cons_cons, List.append_assoc, List.singleton_append,
        List.splitOn_append_cons_self, ih (by simp), List.flatMap_cons (x := value)]

/-- `token` stands between commas of some line, with whitespace around it. -/
def HasToken (header : List (List Char)) (token : List Char) : Prop :=
  token ≠ [] ∧ ∃ value ∈ header, ∃ piece ∈ value.splitOn ',', trimChars piece = token

/-- Some token names the encoding and does not refuse it. -/
def Accepts (qZero : List Char → Bool) (header : List (List Char)) (e : CompressionEncoder) :
    Prop :=
  ∃ token, HasToken header token ∧ parseAcceptEncodingToken qZero token = some (e, true)

theorem hasToken_append {header header' : List (List Char)} {token : List Char} :
    HasToken (header ++ header') token ↔ HasToken header token ∨ HasToken header' token := by
  simp only [HasToken, List.mem_append]
  constructor
  · rintro ⟨hne, value, hvalue | hvalue, hpiece⟩
    · exact .inl ⟨hne, value, hvalue, hpiece⟩
    · exact .inr ⟨hne, value, hvalue, hpiece⟩
  · rintro (⟨hne, value, hvalue, hpiece⟩ | ⟨hne, value, hvalue, hpiece⟩)
    · exact ⟨hne, value, .inl hvalue, hpiece⟩
    · exact ⟨hne, value, .inr hvalue, hpiece⟩

theorem hasToken_cons {value : List Char} {header : List (List Char)} {token : List Char} :
    HasToken (value :: header) token ↔ HasToken [value] token ∨ HasToken header token :=
  @hasToken_append [value] header token

theorem hasToken_congr {header header' : List (List Char)} {token : List Char}
    (h : ∀ value, value ∈ header ↔ value ∈ header') :
    HasToken header token ↔ HasToken header' token := by
  simp only [HasToken, h]

/-- Lines that are joined by commas have the tokens they had. -/
theorem hasToken_intercalate {values : List (List Char)} {token : List Char} :
    HasToken [[','].intercalate values] token ↔ HasToken values token := by
  cases values with
  | nil =>
    -- an empty line has one empty piece, which is no token
    simp only [HasToken, List.intercalate_nil, List.mem_singleton, exists_eq_left,
      List.splitOn_nil, List.not_mem_nil, false_and, exists_false, and_false, iff_false, not_and]
    rintro hne rfl
    exact hne rfl
  | cons value rest =>
    simp only [HasToken, List.mem_singleton, exists_eq_left]
    rw [splitOn_intercalate_comma (by simp)]
    simp only [List.mem_flatMap]
    constructor
    · rintro ⟨hne, piece, ⟨v, hv, hpiece⟩, htoken⟩
      exact ⟨hne, v, hv, piece, hpiece, htoken⟩
    · rintro ⟨hne, v, hv, piece, hpiece, htoken⟩
      exact ⟨hne, piece, ⟨v, hv, hpiece⟩, htoken⟩

/-! ## What the headers accept -/

section QValue

variable {qZero : List Char → Bool}

theorem parse_nil : parseAcceptEncodingToken qZero [] = none := rfl

/-- The encoding that a piece adds, if any. -/
def acceptedOf (qZero : List Char → Bool) (piece : List Char) : Option CompressionEncoder :=
  match parseAcceptEncodingToken qZero (trimChars piece) with
  | some (encoding, true) => some encoding
  | _ => none

theorem acceptedOf_eq_some {piece : List Char} {e : CompressionEncoder} :
    acceptedOf qZero piece = some e ↔
      trimChars piece ≠ [] ∧ parseAcceptEncodingToken qZero (trimChars piece) = some (e, true) := by
  unfold acceptedOf
  constructor
  · intro h
    split at h
    · rename_i hparse
      simp only [Option.some.injEq] at h
      subst h
      refine ⟨?_, hparse⟩
      intro hnil
      rw [hnil, parse_nil] at hparse
      exact absurd hparse (by simp)
    · exact absurd h (by simp)
  · rintro ⟨-, hparse⟩
    rw [hparse]

theorem takeToken_acceptable (parsed : ParsedAcceptEncoding) (piece : List Char) :
    (parsed.takeToken qZero piece).acceptableEncodings =
      parsed.acceptableEncodings ++ (acceptedOf qZero piece).toList := by
  unfold ParsedAcceptEncoding.takeToken acceptedOf
  cases hpiece : trimChars piece with
  | nil => simp [parse_nil]
  | cons c rest =>
    simp only [List.isEmpty_cons, Bool.false_eq_true, if_false]
    cases parseAcceptEncodingToken qZero (c :: rest) with
    | none => simp
    | some found =>
      obtain ⟨e, acceptable⟩ := found
      cases acceptable <;> simp

theorem foldl_takeToken_acceptable (pieces : List (List Char)) (parsed : ParsedAcceptEncoding) :
    (pieces.foldl (ParsedAcceptEncoding.takeToken qZero) parsed).acceptableEncodings =
      parsed.acceptableEncodings ++ pieces.filterMap (acceptedOf qZero) := by
  induction pieces generalizing parsed with
  | nil => simp
  | cons piece rest ih =>
    rw [List.foldl_cons, ih, takeToken_acceptable, List.append_assoc]
    cases h : acceptedOf qZero piece <;> simp [h]

theorem accepts_joined {header : List (List Char)} {e : CompressionEncoder} :
    Accepts qZero header e ↔
      ∃ piece ∈ ([','].intercalate header).splitOn ',', acceptedOf qZero piece = some e := by
  constructor
  · rintro ⟨token, htoken, hparse⟩
    obtain ⟨hne, value, hvalue, piece, hpiece, rfl⟩ := hasToken_intercalate.mpr htoken
    rw [List.mem_singleton] at hvalue
    exact ⟨piece, hvalue ▸ hpiece, acceptedOf_eq_some.mpr ⟨hne, hparse⟩⟩
  · rintro ⟨piece, hpiece, haccepted⟩
    obtain ⟨hne, hparse⟩ := acceptedOf_eq_some.mp haccepted
    exact ⟨trimChars piece, hasToken_intercalate.mp ⟨hne, _, by simp, piece, hpiece, rfl⟩, hparse⟩

theorem mem_compressed {header : List (List Char)} {e : CompressionEncoder}
    (he : e ∈ [CompressionEncoder.statsigBrotli, .gzip]) :
    e ∈ (ParsedAcceptEncoding.fromHeaderValues qZero header).compressed ↔
      Accepts qZero header e := by
  have hkept : (!(e = .plainText || e = .identity) : Bool) = true := by
    simp only [List.mem_cons, List.not_mem_nil, or_false] at he
    rcases he with rfl | rfl <;> rfl
  have hparsed : e ∈ (ParsedAcceptEncoding.fromHeaderValues qZero header).acceptableEncodings ↔
      e ∈ ((([','].intercalate header).splitOn ',').foldl
        (ParsedAcceptEncoding.takeToken qZero) ⟨[], false, false⟩).acceptableEncodings :=
    mem_sorted_deduped
  rw [ParsedAcceptEncoding.compressed, List.mem_filter, hparsed, foldl_takeToken_acceptable,
    List.nil_append, List.mem_filterMap, accepts_joined]
  exact and_iff_left hkept

/-! ## Edits of the headers -/

theorem trimChars_pad {before token after : List Char}
    (hbefore : ∀ c ∈ before, IdList.isWhitespace c = true)
    (hafter : ∀ c ∈ after, IdList.isWhitespace c = true) :
    trimChars (before ++ token ++ after) = trimChars token := by
  unfold trimChars
  rw [List.append_assoc, List.dropWhile_append_of_pos hbefore, List.dropWhile_append]
  have hafter' : ∀ c ∈ after.reverse, IdList.isWhitespace c = true := by simpa using hafter
  split
  · rename_i hall
    rw [List.isEmpty_iff] at hall
    rw [hall, List.dropWhile_eq_nil_iff.mpr hafter]
  · rw [List.rdropWhile, List.reverse_append, List.dropWhile_append_of_pos hafter']
    rfl

/-- A rearrangement of the tokens of one line, or between two lines. A line
is given by the texts that commas stand between; a text may itself have
commas, except where whitespace is put around it. -/
inductive HeaderEdit : List (List Char) → List (List Char) → Prop where
  | permute (above below : List (List Char)) {tokens tokens' : List (List Char)}
    (same : tokens.Perm tokens') :
    HeaderEdit (above ++ [','].intercalate tokens :: below)
      (above ++ [','].intercalate tokens' :: below)
  | duplicate (above below : List (List Char)) {tokens : List (List Char)} {token : List Char}
    (mem : token ∈ tokens) :
    HeaderEdit (above ++ [','].intercalate tokens :: below)
      (above ++ [','].intercalate (token :: tokens) :: below)
  | splitLine (above below tokens tokens' : List (List Char)) :
    HeaderEdit (above ++ [','].intercalate (tokens ++ tokens') :: below)
      (above ++ [','].intercalate tokens :: [','].intercalate tokens' :: below)
  | pad (above below before after : List (List Char)) {left token right : List Char}
    (comma : ',' ∉ token) (left_blank : ∀ c ∈ left, IdList.isWhitespace c = true)
    (right_blank : ∀ c ∈ right, IdList.isWhitespace c = true) :
    HeaderEdit (above ++ [','].intercalate (before ++ token :: after) :: below)
      (above ++ [','].intercalate (before ++ (left ++ token ++ right) :: after) :: below)

/-- A line counts by the tokens that are in it. -/
theorem hasToken_line {above below tokens : List (List Char)} {token : List Char} :
    HasToken (above ++ [','].intercalate tokens :: below) token ↔
      HasToken above token ∨ HasToken tokens token ∨ HasToken below token := by
  rw [hasToken_append, hasToken_cons, hasToken_intercalate]

theorem not_mem_comma_of_blank {s : List Char} (h : ∀ c ∈ s, IdList.isWhitespace c = true) :
    ',' ∉ s := by
  intro hmem
  exact absurd (h _ hmem) (by decide)

theorem hasToken_pad {left text right token : List Char} (comma : ',' ∉ text)
    (hleft : ∀ c ∈ left, IdList.isWhitespace c = true)
    (hright : ∀ c ∈ right, IdList.isWhitespace c = true) :
    HasToken [left ++ text ++ right] token ↔ HasToken [text] token := by
  have hcomma : ',' ∉ left ++ text ++ right := by
    simp [comma, not_mem_comma_of_blank hleft, not_mem_comma_of_blank hright]
  simp only [HasToken, List.mem_singleton, exists_eq_left, List.splitOn_eq_singleton comma,
    List.splitOn_eq_singleton hcomma, trimChars_pad hleft hright]

/-- An edit leaves the tokens as they are. -/
theorem HeaderEdit.hasToken_iff {header header' : List (List Char)} (h : HeaderEdit header header')
    (token : List Char) : HasToken header token ↔ HasToken header' token := by
  cases h with
  | permute above below same =>
    rw [hasToken_line, hasToken_line, hasToken_congr fun value => same.mem_iff]
  | @duplicate above below tokens text mem =>
    have hcongr : HasToken (text :: tokens) token ↔ HasToken tokens token :=
      hasToken_congr fun value => by simpa using fun heq => heq ▸ mem
    rw [hasToken_line, hasToken_line, hcongr]
  | splitLine above below tokens tokens' =>
    rw [hasToken_line, hasToken_line, hasToken_append, hasToken_cons, hasToken_intercalate, or_assoc]
  | pad above below before after comma hleft hright =>
    rw [hasToken_line, hasToken_line, hasToken_append, hasToken_append, hasToken_cons,
      @hasToken_cons _ after, hasToken_pad comma hleft hright]

theorem accepts_iff_of_edits {header header' : List (List Char)}
    (h : Relation.EqvGen HeaderEdit header header') (e : CompressionEncoder) :
    Accepts qZero header e ↔ Accepts qZero header' e := by
  have htokens : ∀ token, HasToken header token ↔ HasToken header' token := by
    induction h with
    | rel _ _ hedit => exact hedit.hasToken_iff
    | refl _ => exact fun _ => Iff.rfl
    | symm _ _ _ ih => exact fun token => (ih token).symm
    | trans _ _ _ _ _ ih ih' => exact fun token => (ih token).trans (ih' token)
  simp only [Accepts, htokens]

/-- The encodings of two requests have one canonical form if their headers
accept the same of the two encodings that the proxy answers in. -/
theorem canonical_compressed_iff {header header' : List (List Char)} :
    canonicalizeEncodings (ParsedAcceptEncoding.fromHeaderValues qZero header).compressed =
        canonicalizeEncodings (ParsedAcceptEncoding.fromHeaderValues qZero header').compressed ↔
      ∀ e ∈ [CompressionEncoder.statsigBrotli, .gzip],
        Accepts qZero header e ↔ Accepts qZero header' e := by
  rw [canonicalizeEncodings_eq_iff]
  refine forall₂_congr fun e he => ?_
  rw [mem_compressed he, mem_compressed he]

end QValue

/-! ## Equality and hash -/

/-- The fields that are compared are those of the identity. -/
theorem RequestContext.eq_iff {a b : RequestContext} :
    a.eq b = true ↔ a.toAuthorizedRequestContext = b.toAuthorizedRequestContext := by
  obtain ⟨⟨_, _, _, _, _, _, _⟩, _, _, _⟩ := a
  obtain ⟨⟨_, _, _, _, _, _, _⟩, _, _, _⟩ := b
  simp only [RequestContext.eq, Bool.and_eq_true, decide_eq_true_eq,
    AuthorizedRequestContext.mk.injEq]
  tauto

/-- Equal contexts have equal hashes, whatever the hasher. -/
theorem RequestContext.hash_eq_of_eq {a b : RequestContext} (h : a.eq b = true) {σ : Type}
    (hasher : Hasher σ) (state : σ) : a.hash hasher state = b.hash hasher state := by
  have hfields := RequestContext.eq_iff.mp h
  simp only [RequestContext.hash, hfields]

theorem context_eq_iff {qZero : List Char → Bool} {inputs : RequestInputs}
    {header header' : List (List Char)} :
    (inputs.context qZero header).eq (inputs.context qZero header') = true ↔
      ∀ e ∈ [CompressionEncoder.statsigBrotli, .gzip],
        Accepts qZero header e ↔ Accepts qZero header' e := by
  rw [← canonical_compressed_iff, RequestContext.eq_iff]
  simp [RequestInputs.context, RequestContext.new, RequestContext.withRequestCapabilities,
    RequestContext.withRawRequest, RequestContext.withIdListRequest, AuthorizedRequestContext.new]

theorem cacheArgs_canonical_iff {qZero : List Char → Bool} {inputs : RequestInputs}
    {header header' : List (List Char)} :
    (inputs.cacheArgs qZero header).canonical = (inputs.cacheArgs qZero header').canonical ↔
      ∀ e ∈ [CompressionEncoder.statsigBrotli, .gzip],
        Accepts qZero header e ↔ Accepts qZero header' e := by
  rw [← canonical_compressed_iff]
  simp [RequestInputs.cacheArgs, CacheKey.canonical]

/-! ## The cache -/

/-- Every entry is what its key says and has its own address. -/
structure AuthorizedRequestContextCache.Good (cache : AuthorizedRequestContextCache) : Prop where
  built : ∀ key cached, cache.entries key = some cached → cached.context = key.context
  allocated : ∀ key cached, cache.entries key = some cached → cached.address < cache.allocated
  distinct : ∀ key key' cached cached', cache.entries key = some cached →
    cache.entries key' = some cached' → cached.address = cached'.address → key = key'

section Cache

variable {cache : AuthorizedRequestContextCache} {key : CacheKey}

theorem orInsert_entries_self : (cache.orInsert key).2.entries key = some (cache.orInsert key).1 := by
  unfold AuthorizedRequestContextCache.orInsert
  cases h : cache.entries key with
  | some cached => exact h
  | none => simp

/-- An entry that is there stays. -/
theorem orInsert_entries_of_some {key' : CacheKey} {cached : CachedContext}
    (h : cache.entries key' = some cached) :
    (cache.orInsert key).2.entries key' = some cached := by
  unfold AuthorizedRequestContextCache.orInsert
  cases hkey : cache.entries key with
  | some _ => exact h
  | none =>
    have hne : key' ≠ key := by
      rintro rfl
      simp [hkey] at h
    simpa [Function.update_of_ne hne] using h

theorem AuthorizedRequestContextCache.Good.orInsert (h : cache.Good) (key : CacheKey) :
    (cache.orInsert key).2.Good := by
  unfold AuthorizedRequestContextCache.orInsert
  cases hkey : cache.entries key with
  | some _ => exact h
  | none =>
    have hcases : ∀ key' cached,
        Function.update cache.entries key (some ⟨cache.allocated, key.context⟩) key' = some cached →
        key' = key ∧ cached = ⟨cache.allocated, key.context⟩ ∨ cache.entries key' = some cached := by
      intro key' cached hcached
      by_cases heq : key' = key
      · subst heq
        simp only [Function.update_self, Option.some.injEq] at hcached
        exact .inl ⟨rfl, hcached.symm⟩
      · rw [Function.update_of_ne heq] at hcached
        exact .inr hcached
    refine ⟨?_, ?_, ?_⟩
    · intro key' cached hcached
      rcases hcases _ _ hcached with ⟨rfl, rfl⟩ | hold
      · rfl
      · exact h.built _ _ hold
    · intro key' cached hcached
      rcases hcases _ _ hcached with ⟨rfl, rfl⟩ | hold
      · exact Nat.lt_succ_self _
      · exact Nat.lt_succ_of_lt (h.allocated _ _ hold)
    · intro key₁ key₂ cached₁ cached₂ h₁ h₂ haddress
      rcases hcases _ _ h₁ with ⟨rfl, rfl⟩ | hold₁ <;> rcases hcases _ _ h₂ with ⟨rfl, rfl⟩ | hold₂
      · rfl
      · exact absurd (h.allocated _ _ hold₂) (by simp [← haddress])
      · exact absurd (h.allocated _ _ hold₁) (by simp [haddress])
      · exact h.distinct _ _ _ _ hold₁ hold₂ haddress

end Cache

structure CacheSystem.Good (s : CacheSystem) : Prop where
  cache : s.cache.Good
  returned : ∀ args cached, (args, cached) ∈ s.returned →
    s.cache.entries args.canonical = some cached

theorem CacheSystem.Good.new : CacheSystem.new.Good where
  cache := ⟨by simp [CacheSystem.new, AuthorizedRequestContextCache.new],
    by simp [CacheSystem.new, AuthorizedRequestContextCache.new],
    by simp [CacheSystem.new, AuthorizedRequestContextCache.new]⟩
  returned := by simp [CacheSystem.new]

theorem CacheSystem.Good.step {s s' : CacheSystem} (h : s.Good) (hstep : CacheStep s s') :
    s'.Good := by
  cases hstep with
  | @hit args cached found =>
    refine ⟨h.cache, ?_⟩
    intro args' cached' hmem
    rcases List.mem_cons.mp hmem with heq | hmem
    · obtain ⟨rfl, rfl⟩ := Prod.mk.inj heq
      exact found
    · exact h.returned args' cached' hmem
  | miss absent => exact ⟨h.cache, h.returned⟩
  | @insert args waits =>
    refine ⟨h.cache.orInsert args.canonical, ?_⟩
    intro args' cached' hmem
    rcases List.mem_cons.mp hmem with heq | hmem
    · obtain ⟨rfl, rfl⟩ := Prod.mk.inj heq
      exact orInsert_entries_self
    · exact orInsert_entries_of_some (h.returned args' cached' hmem)

theorem CacheReach.good {s : CacheSystem} (h : CacheReach s) : s.Good := by
  induction h with
  | refl => exact .new
  | tail _ hstep ih => exact ih.step hstep

/-- Two calls are given one context if their keys are the same. -/
theorem CacheSystem.Good.shared_iff {s : CacheSystem} (h : s.Good) {args args' : CacheKey}
    {cached cached' : CachedContext} (hmem : (args, cached) ∈ s.returned)
    (hmem' : (args', cached') ∈ s.returned) :
    cached.address = cached'.address ↔ args.canonical = args'.canonical := by
  have hentry := h.returned _ _ hmem
  have hentry' := h.returned _ _ hmem'
  constructor
  · exact h.cache.distinct _ _ _ _ hentry hentry'
  · intro heq
    rw [heq, hentry'] at hentry
    simp only [Option.some.injEq] at hentry
    rw [hentry]

/-- The cached context is the one of the request. Its encodings have been
put in their canonical form twice. -/
theorem CacheSystem.Good.context_eq {s : CacheSystem} (h : s.Good) {qZero : List Char → Bool}
    {inputs : RequestInputs} {header : List (List Char)} {cached : CachedContext}
    (hmem : (inputs.cacheArgs qZero header, cached) ∈ s.returned) :
    cached.context.eq ({ inputs with idListSize := none }.context qZero header) = true := by
  rw [RequestContext.eq_iff, h.cache.built _ _ (h.returned _ _ hmem)]
  simp [CacheKey.context, CacheKey.canonical, RequestInputs.cacheArgs, RequestInputs.context,
    RequestContext.new, RequestContext.withRequestCapabilities, RequestContext.withRawRequest,
    RequestContext.withIdListRequest, AuthorizedRequestContext.new, canonicalizeEncodings_idem]

/-! ## Requests that share a context -/

/-- The canonical form is one. Requests whose headers differ by edits have
contexts that are equal and have equal hashes, and in every run the cache
gives them one context, which is equal to theirs. Contexts that differ in
their headers alone are equal, and shared, if and only if the headers accept
the same of statsig-br and gzip. -/
theorem request_context_canonical (qZero : List Char → Bool) :
    (∀ encodings, canonicalizeEncodings (canonicalizeEncodings encodings) =
      canonicalizeEncodings encodings) ∧
    (∀ (inputs : RequestInputs) (header header' : List (List Char)),
      Relation.EqvGen HeaderEdit header header' →
      (inputs.context qZero header).eq (inputs.context qZero header') = true ∧
      (∀ {σ : Type} (hasher : Hasher σ) (state : σ),
        (inputs.context qZero header).hash hasher state =
          (inputs.context qZero header').hash hasher state) ∧
      ∀ s, CacheReach s → ∀ cached cached',
        (inputs.cacheArgs qZero header, cached) ∈ s.returned →
        (inputs.cacheArgs qZero header', cached') ∈ s.returned →
        cached = cached' ∧
          cached.context.eq ({ inputs with idListSize := none }.context qZero header) = true) ∧
    ∀ (inputs : RequestInputs) (header header' : List (List Char)),
      ((inputs.context qZero header).eq (inputs.context qZero header') = true ↔
        ∀ e ∈ [CompressionEncoder.statsigBrotli, .gzip],
          Accepts qZero header e ↔ Accepts qZero header' e) ∧
      ∀ s, CacheReach s → ∀ cached cached',
        (inputs.cacheArgs qZero header, cached) ∈ s.returned →
        (inputs.cacheArgs qZero header', cached') ∈ s.returned →
        (cached.address = cached'.address ↔
          ∀ e ∈ [CompressionEncoder.statsigBrotli, .gzip],
            Accepts qZero header e ↔ Accepts qZero header' e) := by
  refine ⟨canonicalizeEncodings_idem, ?_, ?_⟩
  · intro inputs header header' hedits
    have haccepts : ∀ e ∈ [CompressionEncoder.statsigBrotli, .gzip],
        Accepts qZero header e ↔ Accepts qZero header' e :=
      fun e _ => accepts_iff_of_edits hedits e
    have heq := (@context_eq_iff qZero inputs header header').mpr haccepts
    refine ⟨heq, RequestContext.hash_eq_of_eq heq, ?_⟩
    intro s hs cached cached' hmem hmem'
    have hgood := CacheReach.good hs
    have hentry := hgood.returned _ _ hmem
    rw [cacheArgs_canonical_iff.mpr haccepts, hgood.returned _ _ hmem'] at hentry
    exact ⟨(Option.some.inj hentry).symm, hgood.context_eq hmem⟩
  · intro inputs header header'
    refine ⟨context_eq_iff, ?_⟩
    intro s hs cached cached' hmem hmem'
    rw [(CacheReach.good hs).shared_iff hmem hmem', cacheArgs_canonical_iff]

/-- The lines `gzip,br` of one request and `br` and ` gzip` of another, which
both find nothing in the cache. -/
theorem request_context_canonical_lines :
    let qZero := fun value : List Char => decide (value = ['0'])
    let inputs : RequestInputs :=
      ⟨"secret-key", .v2DownloadConfigSpecs, true, false, none, none, none, none, none⟩
    let header := [['g', 'z', 'i', 'p', ',', 'b', 'r']]
    let header' := [['b', 'r'], [' ', 'g', 'z', 'i', 'p']]
    (inputs.context qZero header).eq (inputs.context qZero header') = true ∧
    ∃ s cached cached', CacheReach s ∧ (inputs.cacheArgs qZero header, cached) ∈ s.returned ∧
      (inputs.cacheArgs qZero header', cached') ∈ s.returned ∧ cached = cached' := by
  intro qZero inputs header header'
  have hpermute : HeaderEdit header [['b', 'r', ',', 'g', 'z', 'i', 'p']] :=
    .permute [] [] (.swap ['b', 'r'] ['g', 'z', 'i', 'p'] [])
  have hsplit : HeaderEdit [['b', 'r', ',', 'g', 'z', 'i', 'p']]
      [['b', 'r'], ['g', 'z', 'i', 'p']] :=
    .splitLine [] [] [['b', 'r']] [['g', 'z', 'i', 'p']]
  have hpad : HeaderEdit [['b', 'r'], ['g', 'z', 'i', 'p']] header' :=
    @HeaderEdit.pad [['b', 'r']] [] [] [] [' '] ['g', 'z', 'i', 'p'] [] (by decide)
      (List.all_eq_true.mp (by decide)) (by simp)
  have hedits : Relation.EqvGen HeaderEdit header header' :=
    .trans _ _ _ (.rel _ _ hpermute) (.trans _ _ _ (.rel _ _ hsplit) (.rel _ _ hpad))
  obtain ⟨heq, -, hshared⟩ := (request_context_canonical qZero).2.1 inputs header header' hedits
  refine ⟨heq, ?_⟩
  let args := inputs.cacheArgs qZero header
  let args' := inputs.cacheArgs qZero header'
  have hmissed : CacheReach ⟨.new, [args', args], []⟩ :=
    .tail (.single (@CacheStep.miss .new args rfl)) (.miss rfl)
  have hfirst := hmissed.tail (@CacheStep.insert _ args' List.mem_cons_self)
  rw [List.erase_cons_head] at hfirst
  have hsecond := hfirst.tail (@CacheStep.insert _ args List.mem_cons_self)
  refine ⟨_, _, _, hsecond, List.mem_cons_self, List.mem_cons_of_mem _ List.mem_cons_self, ?_⟩
  exact (hshared _ hsecond _ _ List.mem_cons_self
    (List.mem_cons_of_mem _ List.mem_cons_self)).1

end ForwardProxy.Servers
