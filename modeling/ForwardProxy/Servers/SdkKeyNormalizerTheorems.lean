/-
ForwardProxy.Servers.SdkKeyNormalizerTheorems — what the redaction leaves
of the keys in a text.

The redacted text is the text up to the first truncation, so a key that
starts outside the matches of the one would do so in the other
(`prefix_of_redact`). It remains to look into a match. A key inside it can
only start in its body and has to find its dash behind it, and this dash is
there if the match was not truncated: `client-secret-…` is a match
`client-secret`, and the rest is no longer looked at as a key. That is the
only way for a long key to stay (`longKey_redact_iff`).
-/
import ForwardProxy.Servers.SdkKeyNormalizer
import ForwardProxy.Text.Split

namespace ForwardProxy.Servers

open Text

/-! ## Kinds -/

theorem kind_alphanum {kind : List Char} (h : kind ∈ kinds) : ∀ c ∈ kind, c.isAlphanum = true := by
  have hall : kinds.all (fun kind => kind.all Char.isAlphanum) = true := by decide
  exact List.all_eq_true.mp (List.all_eq_true.mp hall kind h)

theorem kind_length {kind : List Char} (h : kind ∈ kinds) : kind.length = 6 := by
  revert kind
  decide

theorem dash_not_mem {cs : List Char} (h : ∀ c ∈ cs, c.isAlphanum = true) : '-' ∉ cs := by
  intro hmem
  exact absurd (h '-' hmem) (by decide)

theorem star_not_mem {cs : List Char} (h : ∀ c ∈ cs, c.isAlphanum = true) : '*' ∉ cs := by
  intro hmem
  exact absurd (h '*' hmem) (by decide)

/-! ## Matches -/

/-- The text does not go on with a letter or a digit. -/
def Stops (text : List Char) : Prop := ∀ c ∈ text.head?, c.isAlphanum = false

/-- The dash after a kind is where the kind ends. -/
theorem kind_dash_inj {kind other a b : List Char} (hkind : kind ∈ kinds) (hother : other ∈ kinds)
    (h : kind ++ '-' :: a = other ++ '-' :: b) : kind = other ∧ a = b :=
  append_cons_inj (dash_not_mem (kind_alphanum hkind)) (dash_not_mem (kind_alphanum hother)) h

theorem find_kind {kind : List Char} (hkind : kind ∈ kinds) (tail : List Char) :
    kinds.find? (fun other => other ++ ['-'] <+: kind ++ '-' :: tail) = some kind := by
  cases hfind : kinds.find? fun other => other ++ ['-'] <+: kind ++ '-' :: tail with
  | none =>
    have hnot := List.find?_eq_none.mp hfind kind hkind
    simp [List.prefix_iff_eq_append] at hnot
  | some other =>
    have hother := List.mem_of_find?_eq_some hfind
    obtain ⟨rest, hrest⟩ : other ++ ['-'] <+: kind ++ '-' :: tail := by
      simpa using List.find?_some hfind
    rw [List.append_assoc] at hrest
    rw [(kind_dash_inj hother hkind hrest).1]

theorem takeWhile_body {body rest : List Char} (hbody : ∀ c ∈ body, c.isAlphanum = true)
    (hrest : Stops rest) : (body ++ rest).takeWhile Char.isAlphanum = body := by
  rw [List.takeWhile_append_of_pos hbody]
  cases rest with
  | nil => simp
  | cons c rest =>
    have hc : c.isAlphanum = false := hrest c rfl
    simp [hc]

theorem sdkKeyAt_eq {kind body rest : List Char} (hkind : kind ∈ kinds) (hne : body ≠ [])
    (hbody : ∀ c ∈ body, c.isAlphanum = true) (hrest : Stops rest) :
    sdkKeyAt (kind ++ '-' :: body ++ rest) = some (kind ++ '-' :: body) := by
  have hdrop : (kind ++ '-' :: (body ++ rest)).drop (kind.length + 1) = body ++ rest := by
    rw [List.append_cons]
    simp
  rw [List.append_assoc, List.cons_append]
  simp only [sdkKeyAt, find_kind hkind, hdrop, takeWhile_body hbody hrest, if_neg hne]

/-- Where no match starts there is no kind with a dash and a letter or
digit. -/
theorem sdkKeyAt_none {kind rest : List Char} {c : Char} (hkind : kind ∈ kinds)
    (hc : c.isAlphanum = true) : sdkKeyAt (kind ++ '-' :: c :: rest) ≠ none := by
  intro h
  have hdrop : (kind ++ '-' :: c :: rest).drop (kind.length + 1) = c :: rest := by
    rw [List.append_cons]
    simp
  simp only [sdkKeyAt, find_kind hkind, hdrop] at h
  simp [hc] at h

theorem sdkKeyAt_stops {c : Char} (hc : c.isAlphanum = false) (text : List Char) :
    sdkKeyAt (c :: text) = none := by
  cases h : sdkKeyAt (c :: text) with
  | none => rfl
  | some key =>
    obtain ⟨⟨kind, hkind, body, _, _, rfl⟩, rest, heq, _⟩ := sdkKeyAt_found h
    have hlength := kind_length hkind
    cases kind with
    | nil => simp at hlength
    | cons d kind =>
      rw [List.cons_append, List.cons_append, List.cons.injEq] at heq
      have hd := kind_alphanum hkind d (by simp)
      rw [← heq.1, hc] at hd
      cases hd

/-! ## The redacted text -/

/-- `redact_sdk_keys` on characters. -/
def redact (text : List Char) : List Char := sdkKeyPattern.replaceAll sdkKeyPrefix text

theorem redact_plain {c : Char} {text : List Char} (h : sdkKeyAt (c :: text) = none) :
    redact (c :: text) = c :: redact text :=
  sdkKeyPattern.replaceAll_plain sdkKeyPrefix h

theorem redact_hit {key rest : List Char} (h : sdkKeyAt (key ++ rest) = some key) :
    redact (key ++ rest) = sdkKeyPrefix key ++ redact rest :=
  sdkKeyPattern.replaceAll_hit sdkKeyPrefix h

theorem stops_redact {text : List Char} (h : Stops text) : Stops (redact text) := by
  cases text with
  | nil => simp [Stops, redact]
  | cons c text =>
    have hc : c.isAlphanum = false := h c rfl
    rw [redact_plain (sdkKeyAt_stops hc text)]
    intro d hd
    cases hd
    exact hc

theorem truncationSuffix_eq : truncationSuffix = ['*', '*', '*'] := by decide

theorem stops_truncated (text : List Char) : Stops (truncationSuffix ++ text) := by
  intro c hc
  rw [truncationSuffix_eq] at hc
  cases hc
  decide

/-- What is kept of a match: at most thirteen characters of its body, and
then the text goes on with something else. -/
structure Kept (key rest kind body more : List Char) : Prop where
  kind_mem : kind ∈ kinds
  body_ne : body ≠ []
  alphanum : ∀ c ∈ body, c.isAlphanum = true
  short : body.length ≤ 13
  redacted : redact (key ++ rest) = kind ++ '-' :: body ++ more
  stops : Stops more
  kept : (key = kind ++ '-' :: body ∧ more = redact rest) ∨
    (20 < key.length ∧ kind ++ '-' :: body <+: key ∧ more = truncationSuffix ++ redact rest)

theorem Kept.length_le {key rest kind body more : List Char} (h : Kept key rest kind body more) :
    (kind ++ '-' :: body).length ≤ sdkKeyPrefixLength := by
  have hthirteen := h.short
  simp only [sdkKeyPrefixLength, List.length_append, kind_length h.kind_mem, List.length_cons]
  omega

theorem redact_kept {key rest : List Char} (h : sdkKeyAt (key ++ rest) = some key) :
    ∃ kind body more, Kept key rest kind body more := by
  obtain ⟨⟨kind, hkind, body, hne, hbody, rfl⟩, rest', hrest, hstops⟩ := sdkKeyAt_found h
  obtain rfl := List.append_cancel_left hrest
  have hlength := kind_length hkind
  by_cases hshort : (kind ++ '-' :: body).length ≤ 20
  · have hthirteen : body.length ≤ 13 := by
      simp only [List.length_append, List.length_cons] at hshort
      omega
    have hredact : redact (kind ++ '-' :: body ++ rest) = kind ++ '-' :: body ++ redact rest := by
      rw [redact_hit h, sdkKeyPrefix, sdkKeyPrefixLength, if_pos hshort]
    exact ⟨kind, body, redact rest, hkind, hne, hbody, hthirteen, hredact, stops_redact hstops,
      .inl ⟨rfl, rfl⟩⟩
  · have htake : (kind ++ '-' :: body).take 20 = kind ++ '-' :: body.take 13 := by
      rw [List.take_append, List.take_of_length_le (by omega), hlength]
      rfl
    have hredact : redact (kind ++ '-' :: body ++ rest) =
        kind ++ '-' :: body.take 13 ++ (truncationSuffix ++ redact rest) := by
      rw [redact_hit h, sdkKeyPrefix, sdkKeyPrefixLength, if_neg hshort, htake, List.append_assoc]
    have hcut : kind ++ '-' :: body.take 13 <+: kind ++ '-' :: body := by
      rw [← htake]
      exact List.take_prefix _ _
    exact ⟨kind, body.take 13, _, hkind, by simp [hne],
      fun c hc => hbody c (List.mem_of_mem_take hc), by simp only [List.length_take]; omega,
      hredact, stops_truncated _, .inr ⟨by omega, hcut, rfl⟩⟩

/-- Up to the first truncation the redacted text is the text. -/
theorem prefix_of_redact {word text : List Char} (hstar : '*' ∉ word) (h : word <+: redact text) :
    word <+: text := by
  induction text using sdkKeyPattern.cut_induction generalizing word with
  | nil => exact h
  | plain c text hfind ih =>
    rw [redact_plain hfind] at h
    cases word with
    | nil => exact List.nil_prefix
    | cons d word =>
      rw [List.cons_prefix_cons] at h ⊢
      exact ⟨h.1, ih (fun hmem => hstar (by simp [hmem])) h.2⟩
  | hit key rest hfind ih =>
    obtain ⟨kind, body, more, hkept⟩ := redact_kept hfind
    rw [hkept.redacted] at h
    obtain ⟨after, hafter⟩ := h
    rcases List.append_eq_append_iff.mp hafter with ⟨mid, hmid, _⟩ | ⟨mid, rfl, hmid⟩
    · have hword : word <+: kind ++ '-' :: body := ⟨mid, hmid.symm⟩
      rcases hkept.kept with ⟨rfl, _⟩ | ⟨_, hcut, _⟩
      · exact hword.trans (List.prefix_append _ _)
      · exact (hword.trans hcut).trans (List.prefix_append _ _)
    · rw [List.mem_append, not_or] at hstar
      rcases hkept.kept with ⟨rfl, rfl⟩ | ⟨_, hcut, rfl⟩
      · exact (List.prefix_append_right_inj _).mpr (ih hstar.2 ⟨after, hmid.symm⟩)
      · -- The word would have to go on with a star.
        cases mid with
        | nil =>
          rw [List.append_nil]
          exact hcut.trans (List.prefix_append _ _)
        | cons d mid =>
          rw [truncationSuffix_eq] at hmid
          simp only [List.cons_append, List.cons.injEq] at hmid
          exact absurd (by simp [← hmid.1]) hstar.2

/-- Outside the matches of a text no key starts in the redacted text
either. -/
theorem redact_plain_ne {c d : Char} {text kind rest : List Char}
    (h : sdkKeyAt (c :: text) = none) (hkind : kind ∈ kinds) (hd : d.isAlphanum = true) :
    redact (c :: text) ≠ kind ++ '-' :: d :: rest := by
  intro heq
  have hstar : '*' ∉ kind ++ ['-', d] := by
    have hne : '*' ≠ d := by
      rintro rfl
      cases hd
    simp [star_not_mem (kind_alphanum hkind), hne]
  obtain ⟨tail, htail⟩ := prefix_of_redact hstar ⟨rest, by rw [heq]; simp⟩
  rw [← htail, List.append_assoc] at h
  exact sdkKeyAt_none hkind hd h

/-- A run of letters and digits is not changed. -/
theorem run_redact {run text : List Char} (hrun : ∀ c ∈ run, c.isAlphanum = true)
    (h : run <+: text) : run <+: redact text := by
  induction text using sdkKeyPattern.cut_induction generalizing run with
  | nil => exact h
  | plain c text hfind ih =>
    rw [redact_plain hfind]
    cases run with
    | nil => exact List.nil_prefix
    | cons d run =>
      rw [List.cons_prefix_cons] at h ⊢
      exact ⟨h.1, ih (fun c hc => hrun c (by simp [hc])) h.2⟩
  | hit key rest hfind ih =>
    obtain ⟨kind, body, more, hkept⟩ := redact_kept hfind
    -- The run ends before the dash of the match.
    have hkey : ∃ tail, key ++ rest = kind ++ '-' :: tail := by
      rcases hkept.kept with ⟨rfl, _⟩ | ⟨_, ⟨tail, rfl⟩, _⟩
      · exact ⟨body ++ rest, by simp⟩
      · exact ⟨body ++ tail ++ rest, by simp⟩
    obtain ⟨tail, htail⟩ := hkey
    obtain ⟨after, hafter⟩ := h
    rw [htail] at hafter
    rw [hkept.redacted]
    rcases List.append_eq_append_iff.mp hafter with ⟨mid, rfl, _⟩ | ⟨mid, rfl, hmid⟩
    · simp [List.append_assoc]
    · cases mid with
      | nil => simp [List.append_assoc]
      | cons d mid =>
        rw [List.cons_append, List.cons.injEq] at hmid
        exact absurd (by simp [← hmid.1]) (dash_not_mem hrun)

/-! ## Long keys -/

/-- The text contains a key that is longer than what redaction keeps. -/
def LongKey (text : List Char) : Prop :=
  ∃ key, SdkKey key ∧ sdkKeyPrefixLength < key.length ∧ key <:+: text

/-- The text starts with one. -/
def LongKeyAt (text : List Char) : Prop :=
  ∃ kind ∈ kinds, ∃ run rest, 14 ≤ run.length ∧ (∀ c ∈ run, c.isAlphanum = true) ∧
    text = kind ++ '-' :: (run ++ rest)

theorem longKey_iff {text : List Char} :
    LongKey text ↔ ∃ before after, text = before ++ after ∧ LongKeyAt after := by
  constructor
  · rintro ⟨_, ⟨kind, hkind, body, _, hbody, rfl⟩, hlong, before, after, rfl⟩
    refine ⟨before, kind ++ '-' :: (body ++ after), by simp, kind, hkind, body, after, ?_, hbody,
      rfl⟩
    simp only [sdkKeyPrefixLength, List.length_append, kind_length hkind, List.length_cons] at hlong
    omega
  · rintro ⟨before, _, rfl, kind, hkind, run, rest, hlength, hrun, rfl⟩
    refine ⟨kind ++ '-' :: run, ⟨kind, hkind, run, ?_, hrun, rfl⟩, ?_, before, rest, by simp⟩
    · rintro rfl
      simp at hlength
    · simp only [sdkKeyPrefixLength, List.length_append, kind_length hkind, List.length_cons]
      omega

theorem longKey_append {a b : List Char} :
    LongKey (a ++ b) ↔ (∃ u v, a = u ++ v ∧ LongKeyAt (v ++ b)) ∨ LongKey b := by
  simp only [longKey_iff]
  constructor
  · rintro ⟨before, after, heq, hlong⟩
    rcases List.append_eq_append_iff.mp heq with ⟨mid, _, hmid⟩ | ⟨mid, hmid, hafter⟩
    · exact .inr ⟨mid, after, hmid, hlong⟩
    · rw [hafter] at hlong
      exact .inl ⟨before, mid, hmid, hlong⟩
  · rintro (⟨u, v, rfl, hlong⟩ | ⟨before, after, rfl, hlong⟩)
    · exact ⟨u, v ++ b, by simp, hlong⟩
    · exact ⟨a ++ before, after, by simp, hlong⟩

theorem longKey_cons {c : Char} {text : List Char} :
    LongKey (c :: text) ↔ LongKeyAt (c :: text) ∨ LongKey text := by
  have hnil : LongKeyAt text → LongKey text := fun h => longKey_iff.mpr ⟨[], text, rfl, h⟩
  rw [← List.singleton_append, longKey_append]
  constructor
  · rintro (⟨u, v, huv, hlong⟩ | hlong)
    · rcases List.append_eq_singleton_iff.mp huv.symm with ⟨_, rfl⟩ | ⟨_, rfl⟩
      · exact .inl hlong
      · exact .inr (hnil hlong)
    · exact .inr hlong
  · rintro (hlong | hlong)
    · exact .inl ⟨[], [c], rfl, hlong⟩
    · exact .inr hlong

theorem not_longKeyAt_of_stops {text : List Char} (h : Stops text) : ¬ LongKeyAt text := by
  rintro ⟨kind, hkind, run, rest, _, _, rfl⟩
  have hlength := kind_length hkind
  cases kind with
  | nil => simp at hlength
  | cons c kind =>
    have hc := kind_alphanum hkind c (by simp)
    rw [h c rfl] at hc
    cases hc

/-- The truncation suffix adds none. -/
theorem longKey_truncated {text : List Char} :
    LongKey (truncationSuffix ++ text) ↔ LongKey text := by
  have hstar : ∀ rest, LongKey ('*' :: rest) ↔ LongKey rest := by
    intro rest
    have hstops : Stops ('*' :: rest) := by
      intro c hc
      cases hc
      decide
    rw [longKey_cons]
    exact or_iff_right (not_longKeyAt_of_stops hstops)
  rw [truncationSuffix_eq]
  simp only [List.cons_append, List.nil_append, hstar]

/-- A long key outside the matches of the redacted text would be a match
of the text. -/
theorem not_longKeyAt_plain {c : Char} {text : List Char} (h : sdkKeyAt (c :: text) = none) :
    ¬ LongKeyAt (redact (c :: text)) := by
  rintro ⟨kind, hkind, run, rest, hlength, hrun, heq⟩
  cases run with
  | nil => simp at hlength
  | cons d run => exact redact_plain_ne h hkind (hrun d (by simp)) heq

/-- A run that starts where a body does ends in it. -/
theorem run_length_le {body more run rest : List Char} (hmore : Stops more)
    (hrun : ∀ c ∈ run, c.isAlphanum = true) (h : body ++ more = run ++ rest) :
    run.length ≤ body.length := by
  rcases List.append_eq_append_iff.mp h with ⟨mid, rfl, hmid⟩ | ⟨mid, rfl, _⟩
  · cases mid with
    | nil => simp
    | cons c mid =>
      have hc := hrun c (by simp)
      rw [hmore c (by rw [hmid]; rfl)] at hc
      cases hc
  · simp

/-- A kind in front of a dash ends where the letters and digits do. -/
theorem kind_ends {v more last after : List Char} (hv : ∀ c ∈ v, c.isAlphanum = true)
    (hmore : Stops more) (hlast : last ∈ kinds) (h : v ++ more = last ++ '-' :: after) :
    v = last ∧ more = '-' :: after := by
  rcases List.append_eq_append_iff.mp h with ⟨mid, rfl, hmid⟩ | ⟨mid, rfl, hmid⟩
  · cases mid with
    | nil => exact ⟨by simp, hmid⟩
    | cons c mid =>
      have hc := kind_alphanum hlast c (by simp)
      rw [hmore c (by rw [hmid]; rfl)] at hc
      cases hc
  · cases mid with
    | nil => exact ⟨by simp, hmid.symm⟩
    | cons c mid =>
      rw [List.cons_append, List.cons.injEq] at hmid
      exact absurd (by simp [← hmid.1]) (dash_not_mem hv)

/-- A long key that starts in a kept match has its kind at the end of the
body and its dash behind it. -/
theorem longKeyAt_kept {kind body more u v : List Char} (hkind : kind ∈ kinds)
    (hbody : ∀ c ∈ body, c.isAlphanum = true) (hshort : body.length ≤ 13) (hmore : Stops more)
    (huv : kind ++ '-' :: body = u ++ v) (h : LongKeyAt (v ++ more)) :
    ∃ last ∈ kinds, last <:+ body ∧ ∃ run rest, 14 ≤ run.length ∧
      (∀ c ∈ run, c.isAlphanum = true) ∧ more = '-' :: (run ++ rest) := by
  rcases List.append_eq_append_iff.mp huv with ⟨mid, rfl, hmid⟩ | ⟨mid, rfl, rfl⟩
  · cases mid with
    | nil =>
      -- At the dash.
      have hstops : Stops (v ++ more) := by
        rw [List.nil_append] at hmid
        rw [← hmid]
        intro c hc
        cases hc
        decide
      exact absurd h (not_longKeyAt_of_stops hstops)
    | cons d mid =>
      -- In the body.
      rw [List.cons_append, List.cons.injEq] at hmid
      obtain ⟨last, hlast, run, rest, hlength, hrun, heq⟩ := h
      have hv : ∀ c ∈ v, c.isAlphanum = true := fun c hc => hbody c (by simp [hmid.2, hc])
      obtain ⟨rfl, hmore'⟩ := kind_ends hv hmore hlast heq
      exact ⟨v, hlast, ⟨mid, hmid.2.symm⟩, run, rest, hlength, hrun, hmore'⟩
  · -- In the kind: the key would be the match itself, which is not that long.
    obtain ⟨last, hlast, run, rest, hlength, hrun, heq⟩ := h
    have hdash : '-' ∉ mid := dash_not_mem fun c hc => kind_alphanum hkind c (by simp [hc])
    rw [List.append_assoc, List.cons_append] at heq
    obtain ⟨_, hrest⟩ := append_cons_inj hdash (dash_not_mem (kind_alphanum hlast)) heq
    have hle := run_length_le hmore hrun hrest
    omega

/-! ## Keys that go on -/

/-- The match is kept as it is, it ends in the name of a kind, and what
follows makes a long key of that. -/
def GoesOn (key rest : List Char) : Prop :=
  key.length ≤ sdkKeyPrefixLength ∧ (∃ kind ∈ kinds, kind <:+ key) ∧
    ∃ run after, 14 ≤ run.length ∧ (∀ c ∈ run, c.isAlphanum = true) ∧ rest = '-' :: (run ++ after)

/-- Some match of the text goes on. -/
def KeyGoesOn (text : List Char) : Prop :=
  ∃ before key after, sdkKeyPattern.pieces text = before ++ .hit key :: after ∧
    GoesOn key (after.flatMap Piece.raw)

theorem keyGoesOn_plain {c : Char} {text : List Char} (h : sdkKeyAt (c :: text) = none) :
    KeyGoesOn (c :: text) ↔ KeyGoesOn text := by
  unfold KeyGoesOn
  rw [sdkKeyPattern.pieces_plain h]
  constructor
  · rintro ⟨before, key, after, hpieces, hgoes⟩
    cases before with
    | nil => simp at hpieces
    | cons piece before =>
      rw [List.cons_append, List.cons.injEq] at hpieces
      exact ⟨before, key, after, hpieces.2, hgoes⟩
  · rintro ⟨before, key, after, hpieces, hgoes⟩
    exact ⟨.plain c :: before, key, after, by rw [hpieces]; rfl, hgoes⟩

theorem keyGoesOn_hit {key rest : List Char} (h : sdkKeyAt (key ++ rest) = some key) :
    KeyGoesOn (key ++ rest) ↔ GoesOn key rest ∨ KeyGoesOn rest := by
  unfold KeyGoesOn
  rw [sdkKeyPattern.pieces_hit h]
  constructor
  · rintro ⟨before, other, after, hpieces, hgoes⟩
    cases before with
    | nil =>
      rw [List.nil_append, List.cons.injEq, Piece.hit.injEq] at hpieces
      obtain ⟨rfl, rfl⟩ := hpieces
      rw [sdkKeyPattern.pieces_raw] at hgoes
      exact .inl hgoes
    | cons piece before =>
      rw [List.cons_append, List.cons.injEq] at hpieces
      exact .inr ⟨before, other, after, hpieces.2, hgoes⟩
  · rintro (hgoes | ⟨before, other, after, hpieces, hgoes⟩)
    · exact ⟨[], key, sdkKeyPattern.pieces rest, rfl, by rwa [sdkKeyPattern.pieces_raw]⟩
    · exact ⟨.hit key :: before, other, after, by rw [hpieces]; rfl, hgoes⟩

/-- What a match contributes to the long keys of the redacted text. -/
theorem longKey_hit {key rest : List Char} (h : sdkKeyAt (key ++ rest) = some key) :
    LongKey (redact (key ++ rest)) ↔ GoesOn key rest ∨ LongKey (redact rest) := by
  obtain ⟨kind, body, more, hkept⟩ := redact_kept h
  rw [hkept.redacted, longKey_append]
  constructor
  · rintro (⟨u, v, huv, hlong⟩ | hlong)
    · obtain ⟨last, hlast, hsuffix, run, after, hlength, hrun, hmore⟩ :=
        longKeyAt_kept hkept.kind_mem hkept.alphanum hkept.short hkept.stops huv hlong
      rcases hkept.kept with ⟨rfl, rfl⟩ | ⟨_, _, rfl⟩
      · have hstar : '*' ∉ '-' :: run := by
          simp [star_not_mem hrun]
        obtain ⟨tail, htail⟩ := prefix_of_redact hstar ⟨after, by rw [hmore]; rfl⟩
        exact .inl ⟨hkept.length_le, ⟨last, hlast, hsuffix.trans ⟨kind ++ ['-'], by simp⟩⟩, run, tail,
          hlength, hrun, htail.symm⟩
      · rw [truncationSuffix_eq] at hmore
        simp at hmore
    · rcases hkept.kept with ⟨_, rfl⟩ | ⟨_, _, rfl⟩
      · exact .inr hlong
      · exact .inr (longKey_truncated.mp hlong)
  · rintro (hgoes | hlong)
    · obtain ⟨hshort, ⟨last, hlast, u, hu⟩, run, after, hlength, hrun, rfl⟩ := hgoes
      rcases hkept.kept with ⟨rfl, rfl⟩ | ⟨hlong, _, _⟩
      · have hdash := redact_plain (sdkKeyAt_stops (c := '-') (by decide) (run ++ after))
        obtain ⟨tail, htail⟩ := run_redact hrun (List.prefix_append run after)
        exact .inl ⟨u, last, hu.symm, last, hlast, run, tail, hlength, hrun,
          by rw [hdash, ← htail]⟩
      · rw [sdkKeyPrefixLength] at hshort
        omega
    · rcases hkept.kept with ⟨_, rfl⟩ | ⟨_, _, rfl⟩
      · exact .inr hlong
      · exact .inr (longKey_truncated.mpr hlong)

/-- A long key stays exactly if a match goes on. -/
theorem longKey_redact_iff (text : List Char) : LongKey (redact text) ↔ KeyGoesOn text := by
  induction text using sdkKeyPattern.cut_induction with
  | nil =>
    simp only [redact, Matcher.replaceAll_nil, longKey_iff, KeyGoesOn, Matcher.pieces_nil]
    constructor
    · rintro ⟨before, after, hnil, kind, hkind, run, rest, _, _, rfl⟩
      simp at hnil
    · rintro ⟨before, key, after, hnil, _⟩
      simp at hnil
  | plain c text h ih =>
    rw [keyGoesOn_plain h, ← ih]
    have hnot := not_longKeyAt_plain h
    rw [redact_plain h] at hnot ⊢
    rw [longKey_cons]
    exact or_iff_right hnot
  | hit key rest h ih => rw [longKey_hit h, keyGoesOn_hit h, ih]

/-! ## Redacting twice -/

theorem redact_truncated (text : List Char) :
    redact (truncationSuffix ++ text) = truncationSuffix ++ redact text := by
  have hstar : ∀ rest, redact ('*' :: rest) = '*' :: redact rest :=
    fun rest => redact_plain (sdkKeyAt_stops (by decide) rest)
  rw [truncationSuffix_eq]
  simp only [List.cons_append, List.nil_append, hstar]

/-- A match of the redacted text starts where one of the text did. -/
theorem sdkKeyAt_redact_plain {c : Char} {text : List Char} (h : sdkKeyAt (c :: text) = none) :
    sdkKeyAt (c :: redact text) = none := by
  cases hkey : sdkKeyAt (c :: redact text) with
  | none => rfl
  | some key =>
    obtain ⟨⟨kind, hkind, body, hne, hbody, rfl⟩, rest, heq, _⟩ := sdkKeyAt_found hkey
    cases body with
    | nil => exact absurd rfl hne
    | cons d body =>
      have hredact : redact (c :: text) = kind ++ '-' :: d :: (body ++ rest) := by
        rw [redact_plain h, heq]
        simp
      exact absurd hredact (redact_plain_ne h hkind (hbody d (by simp)))

theorem redact_redact (text : List Char) : redact (redact text) = redact text := by
  induction text using sdkKeyPattern.cut_induction with
  | nil => rfl
  | plain c text h ih => rw [redact_plain h, redact_plain (sdkKeyAt_redact_plain h), ih]
  | hit key rest h ih =>
    obtain ⟨kind, body, more, hkept⟩ := redact_kept h
    have hagain := sdkKeyAt_eq hkept.kind_mem hkept.body_ne hkept.alphanum hkept.stops
    have hmore : redact more = more := by
      rcases hkept.kept with ⟨_, rfl⟩ | ⟨_, _, rfl⟩
      · exact ih
      · rw [redact_truncated, ih]
    rw [hkept.redacted, redact_hit hagain, sdkKeyPrefix, if_pos hkept.length_le, hmore]

/-! ## Redaction -/

/-- What redaction is for. -/
structure Redacted (text : String) : Prop where
  /-- No key is left. -/
  noKey : ¬ LongKey (redactSdkKeys text).toList
  /-- Only keys are changed, each in its place. -/
  outside : text.toList = (sdkKeyPattern.pieces text.toList).flatMap Piece.raw ∧
    (redactSdkKeys text).toList =
      (sdkKeyPattern.pieces text.toList).flatMap (Piece.replaced sdkKeyPrefix) ∧
    ∀ key, .hit key ∈ sdkKeyPattern.pieces text.toList → SdkKey key
  twice : redactSdkKeys (redactSdkKeys text) = redactSdkKeys text

theorem toList_redactSdkKeys (text : String) : (redactSdkKeys text).toList = redact text.toList :=
  String.toList_ofList

theorem redacted_iff_no_key_goes_on (text : String) :
    Redacted text ↔ ¬ KeyGoesOn text.toList := by
  constructor
  · intro h
    rw [← longKey_redact_iff, ← toList_redactSdkKeys]
    exact h.noKey
  · intro h
    refine ⟨?_, ⟨?_, ?_, ?_⟩, ?_⟩
    · rwa [toList_redactSdkKeys, longKey_redact_iff]
    · rw [sdkKeyPattern.pieces_raw]
    · rw [toList_redactSdkKeys]
      rfl
    · intro key hkey
      obtain ⟨rest, hfind⟩ := sdkKeyPattern.find_of_hit hkey
      exact (sdkKeyAt_found hfind).1
    · apply String.toList_inj.mp
      rw [toList_redactSdkKeys, toList_redactSdkKeys, redact_redact]

/-- The key in this text is logged in full. -/
theorem key_after_client_not_redacted :
    redactSdkKeys "client-secret-abcdefghijklmnopqrstuvwxyz" =
        "client-secret-abcdefghijklmnopqrstuvwxyz" ∧
      ¬ Redacted "client-secret-abcdefghijklmnopqrstuvwxyz" := by
  have hsame : redactSdkKeys "client-secret-abcdefghijklmnopqrstuvwxyz" =
      "client-secret-abcdefghijklmnopqrstuvwxyz" := by decide
  refine ⟨hsame, ?_⟩
  intro h
  apply h.noKey
  rw [hsame]
  refine ⟨"secret-abcdefghijklmnopqrstuvwxyz".toList,
    ⟨"secret".toList, by decide, "abcdefghijklmnopqrstuvwxyz".toList, by decide,
      List.all_eq_true.mp (by decide), rfl⟩,
    by decide, "client-".toList, [], by decide⟩

end ForwardProxy.Servers
