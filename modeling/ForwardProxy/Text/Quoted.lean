/-
ForwardProxy.Text.Quoted — texts with quoted strings in them, joined by a
separator that may occur inside the strings.

`scan` follows a text through its strings. Outside a string a backslash is
an error, as in JSON. A text is `Clean` if it ends outside a string and the
separator is never read outside one. The parts of joined clean texts are
then found again (`join_inj`), even if the text before them is unknown
(`join_suffix_unique`). The reason for the latter is `scan_flipped`: of two
readings of one text, one of which starts inside a string and the other
outside, one is always inside, so they cannot both end outside.

`JsonText` is the compact text of a JSON value. What is printed for a
number is a parameter.
-/
import Mathlib.Data.List.Basic
import Mathlib.Data.List.Infix
import Mathlib.Tactic.Common

namespace ForwardProxy.Text

/-! ## Scanning -/

/-- Outside a string, inside one, and after a backslash inside one. -/
inductive Quote where
  | out
  | str
  | esc
  deriving DecidableEq, Repr

def Quote.step : Quote → Char → Option Quote
  | .out, c => if c = '"' then some .str else if c = '\\' then none else some .out
  | .str, c => if c = '"' then some .out else if c = '\\' then some .esc else some .str
  | .esc, _ => some .str

def scan (q : Quote) : List Char → Option Quote
  | [] => some q
  | c :: cs => (q.step c).bind fun q' => scan q' cs

theorem scan_append (q : Quote) (a b : List Char) :
    scan q (a ++ b) = (scan q a).bind fun q' => scan q' b := by
  induction a generalizing q with
  | nil => rfl
  | cons c a ih =>
    rw [List.cons_append, scan, scan]
    cases q.step c with
    | none => rfl
    | some q' => exact ih q'

/-- What a text that scans to the end does up to any cut. -/
theorem scan_cut {q q' : Quote} {a b : List Char} (h : scan q (a ++ b) = some q') :
    ∃ mid, scan q a = some mid ∧ scan mid b = some q' := by
  rw [scan_append] at h
  exact Option.bind_eq_some_iff.mp h

/-- After a character that is neither a quote nor a backslash a reading is
outside, if it was outside before, or inside. -/
theorem scan_concat {q q' : Quote} {a : List Char} {c : Char} (hquote : c ≠ '"')
    (hslash : c ≠ '\\') (h : scan q (a ++ [c]) = some q') :
    (scan q a = some .out ∧ q' = .out) ∨ q' = .str := by
  obtain ⟨mid, hmid, hlast⟩ := scan_cut h
  cases mid with
  | out =>
    simp only [scan, Quote.step, hquote, hslash, if_false, Option.bind_some,
      Option.some.injEq] at hlast
    exact .inl ⟨hmid, hlast.symm⟩
  | str =>
    simp only [scan, Quote.step, hquote, hslash, if_false, Option.bind_some,
      Option.some.injEq] at hlast
    exact .inr hlast.symm
  | esc =>
    simp only [scan, Quote.step, Option.bind_some, Option.some.injEq] at hlast
    exact .inr hlast.symm

/-- Two readings of a text, one from inside a string and one from outside,
never meet: a quote turns both over, and a backslash ends the one that is
outside. -/
theorem scan_flipped (cs : List Char) :
    (∀ a b, scan .str cs = some a → scan .out cs = some b → (a = .str ∧ b = .out) ∨
      (a = .out ∧ b = .str)) := by
  induction cs with
  | nil =>
    intro a b ha hb
    simp only [scan, Option.some.injEq] at ha hb
    exact .inl ⟨ha.symm, hb.symm⟩
  | cons c cs ih =>
    intro a b ha hb
    by_cases hquote : c = '"'
    · simp only [scan, Quote.step, hquote, if_true, Option.bind_some] at ha hb
      rcases ih b a hb ha with ⟨hb, ha⟩ | ⟨hb, ha⟩
      · exact .inr ⟨ha, hb⟩
      · exact .inl ⟨ha, hb⟩
    · by_cases hslash : c = '\\'
      · subst hslash
        simp [scan, Quote.step] at hb
      · simp only [scan, Quote.step, hquote, hslash, if_false, Option.bind_some] at ha hb
        exact ih a b ha hb

/-! ## Clean texts -/

/-- The text ends outside a string, and `sep` is never read outside one. -/
structure Clean (sep : Char) (cs : List Char) : Prop where
  closed : scan .out cs = some .out
  inside : ∀ before after, cs = before ++ sep :: after → scan .out before ≠ some .out

theorem clean_nil (sep : Char) : Clean sep [] := ⟨rfl, by simp⟩

theorem Clean.append {sep : Char} {a b : List Char} (ha : Clean sep a) (hb : Clean sep b) :
    Clean sep (a ++ b) := by
  refine ⟨by rw [scan_append, ha.closed]; exact hb.closed, ?_⟩
  intro before after h
  rcases List.append_eq_append_iff.mp h with ⟨mid, hmid, hrest⟩ | ⟨mid, hmid, hrest⟩
  · rw [hmid, scan_append, ha.closed]
    exact hb.inside mid after hrest
  · cases mid with
    | nil =>
      rw [List.append_nil] at hmid
      rw [List.nil_append] at hrest
      rw [← hmid, ha.closed]
      intro _
      exact hb.inside [] after hrest.symm rfl
    | cons c mid =>
      rw [List.cons_append, List.cons.injEq] at hrest
      exact ha.inside before mid (by rw [hmid, hrest.1])

theorem clean_singleton {sep c : Char} (hsep : c ≠ sep) (hquote : c ≠ '"') (hslash : c ≠ '\\') :
    Clean sep [c] := by
  refine ⟨by simp [scan, Quote.step, hquote, hslash], ?_⟩
  intro before after h
  cases before with
  | nil =>
    simp only [List.nil_append, List.cons.injEq] at h
    exact absurd h.1 hsep
  | cons b before => simp at h

/-- A text of plain characters is clean. -/
theorem clean_of_plain {sep : Char} {cs : List Char}
    (h : ∀ c ∈ cs, c ≠ sep ∧ c ≠ '"' ∧ c ≠ '\\') : Clean sep cs := by
  induction cs with
  | nil => exact clean_nil sep
  | cons c cs ih =>
    obtain ⟨hsep, hquote, hslash⟩ := h c (by simp)
    exact (clean_singleton hsep hquote hslash).append (ih fun d hd => h d (by simp [hd]))

/-! ## Joined texts -/

/-- The parts of a text, each but the first after a separator. -/
def join (sep : Char) (parts : List (List Char)) : List Char := [sep].intercalate parts

theorem join_singleton (sep : Char) (part : List Char) : join sep [part] = part := by
  simp [join]

theorem join_cons_cons (sep : Char) (part next : List Char) (parts : List (List Char)) :
    join sep (part :: next :: parts) = part ++ sep :: join sep (next :: parts) := by
  simp [join, List.intercalate_cons_cons]

/-- A clean text ends at the first separator that is read outside a
string. -/
theorem Clean.split {sep : Char} {part rest before after : List Char} (hpart : Clean sep part)
    (h : part ++ sep :: rest = before ++ sep :: after) (hbefore : scan .out before = some .out) :
    (before = part ∧ after = rest) ∨
      ∃ more, before = part ++ sep :: more ∧ rest = more ++ sep :: after := by
  rcases List.append_eq_append_iff.mp h with ⟨mid, hmid, hrest⟩ | ⟨mid, hmid, hrest⟩
  · cases mid with
    | nil =>
      rw [List.append_nil] at hmid
      rw [List.nil_append, List.cons.injEq] at hrest
      exact .inl ⟨hmid, hrest.2.symm⟩
    | cons c mid =>
      rw [List.cons_append, List.cons.injEq] at hrest
      exact .inr ⟨mid, by rw [hmid, hrest.1], hrest.2⟩
  · cases mid with
    | nil =>
      rw [List.append_nil] at hmid
      rw [List.nil_append, List.cons.injEq] at hrest
      exact .inl ⟨hmid.symm, hrest.2⟩
    | cons c mid =>
      rw [List.cons_append, List.cons.injEq] at hrest
      exact absurd hbefore (hpart.inside before mid (by rw [hmid, hrest.1]))

section Join

variable {sep : Char}

theorem scan_out_cons {c : Char} (hquote : c ≠ '"') (hslash : c ≠ '\\') (cs : List Char) :
    scan .out (c :: cs) = scan .out cs := by
  simp [scan, Quote.step, hquote, hslash]

theorem scan_join (hquote : sep ≠ '"') (hslash : sep ≠ '\\') {parts : List (List Char)}
    (h : ∀ part ∈ parts, Clean sep part) : scan .out (join sep parts) = some .out := by
  induction parts with
  | nil => rfl
  | cons part parts ih =>
    have hpart := (h part (by simp)).closed
    have hparts := ih fun other hother => h other (by simp [hother])
    cases parts with
    | nil => rwa [join_singleton]
    | cons next parts =>
      rw [join_cons_cons, scan_append, hpart, Option.bind_some, scan_out_cons hquote hslash]
      exact hparts

/-- Clean parts are read back. -/
theorem join_inj {parts parts' : List (List Char)} (h : ∀ part ∈ parts, Clean sep part)
    (h' : ∀ part ∈ parts', Clean sep part) (hne : parts ≠ []) (hne' : parts' ≠ [])
    (heq : join sep parts = join sep parts') : parts = parts' := by
  induction parts generalizing parts' with
  | nil => exact absurd rfl hne
  | cons part parts ih =>
    cases parts' with
    | nil => exact absurd rfl hne'
    | cons part' parts' =>
      have hpart := h part (by simp)
      have hpart' := h' part' (by simp)
      cases parts with
      | nil =>
        cases parts' with
        | nil => simpa [join_singleton] using heq
        | cons next' parts' =>
          rw [join_singleton, join_cons_cons] at heq
          exact absurd hpart'.closed (hpart.inside _ _ heq)
      | cons next parts =>
        cases parts' with
        | nil =>
          rw [join_singleton, join_cons_cons] at heq
          exact absurd hpart.closed (hpart'.inside _ _ heq.symm)
        | cons next' parts' =>
          rw [join_cons_cons, join_cons_cons] at heq
          rcases hpart.split heq hpart'.closed with ⟨rfl, hrest⟩ | ⟨more, hmore, _⟩
          · have htail := ih (fun p hp => h p (by simp [hp])) (fun p hp => h' p (by simp [hp]))
              (by simp) (by simp) hrest.symm
            rw [htail]
          · exact absurd hpart.closed (hpart'.inside _ _ hmore)

/-- What follows a separator that is read outside a string are some of the
later parts. -/
theorem join_cut (hquote : sep ≠ '"') (hslash : sep ≠ '\\') {part : List Char}
    {parts : List (List Char)} (hpart : Clean sep part) (h : ∀ other ∈ parts, Clean sep other)
    {before after : List Char} (heq : join sep (part :: parts) = before ++ sep :: after)
    (hbefore : scan .out before = some .out) :
    ∃ next rest, next ∈ parts ∧ after = join sep (next :: rest) := by
  induction parts generalizing part before with
  | nil =>
    rw [join_singleton] at heq
    exact absurd hbefore (hpart.inside before after heq)
  | cons next parts ih =>
    rw [join_cons_cons] at heq
    rcases hpart.split heq hbefore with ⟨_, rfl⟩ | ⟨more, rfl, hrest⟩
    · exact ⟨next, parts, by simp, rfl⟩
    · rw [scan_append, hpart.closed, Option.bind_some, scan_out_cons hquote hslash] at hbefore
      obtain ⟨found, rest, hfound, hafter⟩ := ih (h next (by simp))
        (fun other hother => h other (by simp [hother])) hrest hbefore
      exact ⟨found, rest, by simp [hfound], hafter⟩

theorem join_head (part : List Char) (parts : List (List Char)) (h : part ≠ []) :
    (join sep (part :: parts)).head? = part.head? := by
  cases part with
  | nil => exact absurd rfl h
  | cons c part =>
    cases parts with
    | nil => rw [join_singleton]
    | cons next parts =>
      rw [join_cons_cons]
      rfl

/-- One half of `join_suffix_unique`: the parts on the right cannot start
inside those on the left. -/
theorem join_suffix_not_inside (hquote : sep ≠ '"') (hslash : sep ≠ '\\') {mark : Char}
    {part part' : List Char} {parts parts' : List (List Char)} (hpart : Clean sep part)
    (h : ∀ other ∈ parts, Clean sep other ∧ other ≠ [] ∧ other.head? ≠ some mark)
    (hpart' : Clean sep part') (h' : ∀ other ∈ parts', Clean sep other)
    (hmark : part'.head? = some mark) {cut : List Char}
    (heq : join sep (part :: parts) = cut ++ sep :: join sep (part' :: parts')) : False := by
  have hjoin : scan .out (join sep (part' :: parts')) = some .out :=
    scan_join hquote hslash (by simpa using ⟨hpart', h'⟩)
  have hall : scan .out (join sep (part :: parts)) = some .out :=
    scan_join hquote hslash (by simpa using ⟨hpart, fun other hother => (h other hother).1⟩)
  rw [heq, List.append_cons] at hall
  obtain ⟨mid, hmid, hrest⟩ := scan_cut hall
  rcases scan_concat hquote hslash hmid with ⟨hout, _⟩ | rfl
  · -- The separator is one of the left parts, and the part after it has another mark.
    obtain ⟨next, rest, hnext, hafter⟩ := join_cut hquote hslash hpart
      (fun other hother => (h other hother).1) heq hout
    obtain ⟨_, hne, hhead⟩ := h next hnext
    have hne' : part' ≠ [] := by
      rintro rfl
      simp at hmark
    apply hhead
    rw [← join_head next rest hne, ← hafter, join_head part' parts' hne', hmark]
  · -- Inside a string of the left parts: the two readings cannot both end outside.
    rcases scan_flipped _ _ _ hrest hjoin with ⟨h, _⟩ | ⟨_, h⟩ <;> cases h

/-- Joined clean parts at the end of a text, of which only the first
starts with `mark`, are found again whatever text precedes them. -/
theorem join_suffix_unique (hquote : sep ≠ '"') (hslash : sep ≠ '\\') {mark : Char}
    {a b part part' : List Char} {parts parts' : List (List Char)}
    (ha : ∃ init, a = init ++ [sep]) (hb : ∃ init, b = init ++ [sep])
    (hpart : Clean sep part) (hpart' : Clean sep part')
    (h : ∀ other ∈ parts, Clean sep other ∧ other ≠ [] ∧ other.head? ≠ some mark)
    (h' : ∀ other ∈ parts', Clean sep other ∧ other ≠ [] ∧ other.head? ≠ some mark)
    (hmark : part.head? = some mark) (hmark' : part'.head? = some mark)
    (heq : a ++ join sep (part :: parts) = b ++ join sep (part' :: parts')) :
    a = b ∧ part :: parts = part' :: parts' := by
  have hclean := fun other hother => (h other hother).1
  have hclean' := fun other hother => (h' other hother).1
  have key : a = b := by
    obtain ⟨init, rfl⟩ := ha
    obtain ⟨init', rfl⟩ := hb
    rcases List.append_eq_append_iff.mp heq with ⟨cut, hcut, hrest⟩ | ⟨cut, hcut, hrest⟩
    · rcases List.eq_nil_or_concat' cut with rfl | ⟨cut, c, rfl⟩
      · rw [hcut, List.append_nil]
      · rw [← List.append_assoc] at hcut
        obtain ⟨_, hc⟩ := List.append_inj' hcut rfl
        rw [← hc, List.append_assoc] at hrest
        exact (join_suffix_not_inside hquote hslash hpart h hpart' hclean' hmark' hrest).elim
    · rcases List.eq_nil_or_concat' cut with rfl | ⟨cut, c, rfl⟩
      · rw [hcut, List.append_nil]
      · rw [← List.append_assoc] at hcut
        obtain ⟨_, hc⟩ := List.append_inj' hcut rfl
        rw [← hc, List.append_assoc] at hrest
        exact (join_suffix_not_inside hquote hslash hpart' h' hpart hclean hmark hrest).elim
  subst key
  refine ⟨rfl, join_inj (by simpa using ⟨hpart, hclean⟩) (by simpa using ⟨hpart', hclean'⟩)
    (by simp) (by simp) (List.append_cancel_left heq)⟩

end Join

/-! ## JSON texts -/

/-- The text stays inside the string it starts in. -/
structure Inner (cs : List Char) : Prop where
  closed : scan .str cs = some .str
  inside : ∀ before after, cs = before ++ after → scan .str before ≠ some .out

theorem inner_nil : Inner [] := by
  refine ⟨rfl, ?_⟩
  intro before after h
  rw [List.nil_eq_append_iff] at h
  rw [h.1]
  simp [scan]

theorem Inner.cons {c : Char} {cs : List Char} (h : Inner cs) (hquote : c ≠ '"')
    (hslash : c ≠ '\\') : Inner (c :: cs) := by
  have hstep : ∀ rest, scan .str (c :: rest) = scan .str rest := by
    simp [scan, Quote.step, hquote, hslash]
  refine ⟨by rw [hstep, h.closed], ?_⟩
  intro before after hcut
  cases before with
  | nil => simp [scan]
  | cons b before =>
    rw [List.cons_append, List.cons.injEq] at hcut
    rw [← hcut.1, hstep]
    exact h.inside before after hcut.2

theorem Inner.escape {cs : List Char} (h : Inner cs) (c : Char) : Inner ('\\' :: c :: cs) := by
  have hstep : ∀ rest, scan .str ('\\' :: c :: rest) = scan .str rest := by
    simp [scan, Quote.step]
  refine ⟨by rw [hstep, h.closed], ?_⟩
  intro before after hcut
  match before with
  | [] => simp [scan]
  | [b] =>
    rw [List.cons_append, List.cons.injEq] at hcut
    rw [← hcut.1]
    simp [scan, Quote.step]
  | b :: b' :: before =>
    rw [List.cons_append, List.cons_append, List.cons.injEq, List.cons.injEq] at hcut
    rw [← hcut.1, ← hcut.2.1, hstep]
    exact h.inside before after hcut.2.2

/-- A character as it is written inside a string. -/
def escapeJsonChar (c : Char) : List Char :=
  if c = '"' then ['\\', '"']
  else if c = '\\' then ['\\', '\\']
  else if c = '\x08' then ['\\', 'b']
  else if c = '\x0c' then ['\\', 'f']
  else if c = '\n' then ['\\', 'n']
  else if c = '\r' then ['\\', 'r']
  else if c = '\t' then ['\\', 't']
  else if c.toNat < 32 then
    ['\\', 'u', '0', '0', Nat.digitChar (c.toNat / 16), Nat.digitChar (c.toNat % 16)]
  else [c]

def quoteJson (s : List Char) : List Char := '"' :: (s.flatMap escapeJsonChar ++ ['"'])

theorem digitChar_plain (n : Nat) (h : n < 16) :
    Nat.digitChar n ≠ '"' ∧ Nat.digitChar n ≠ '\\' := by
  have hall : ∀ n < 16, Nat.digitChar n ≠ '"' ∧ Nat.digitChar n ≠ '\\' := by decide
  exact hall n h

theorem inner_escapeJsonChar (c : Char) {cs : List Char} (h : Inner cs) :
    Inner (escapeJsonChar c ++ cs) := by
  unfold escapeJsonChar
  split
  · exact h.escape _
  · rename_i hquote
    split
    · exact h.escape _
    · rename_i hslash
      iterate 5
        split
        · exact h.escape _
      split
      · rename_i hcontrol
        have hhigh := digitChar_plain (c.toNat / 16) (by omega)
        have hlow := digitChar_plain (c.toNat % 16) (by omega)
        have hdigits := (h.cons hlow.1 hlow.2).cons hhigh.1 hhigh.2
        have hzeros := (hdigits.cons (c := '0') (by decide) (by decide)).cons (c := '0')
          (by decide) (by decide)
        exact hzeros.escape _
      · exact h.cons hquote hslash

theorem inner_escapeJson (s : List Char) : Inner (s.flatMap escapeJsonChar) := by
  induction s with
  | nil => exact inner_nil
  | cons c s ih =>
    rw [List.flatMap_cons]
    exact inner_escapeJsonChar c ih

theorem clean_quoteJson {sep : Char} (hquote : sep ≠ '"') (s : List Char) :
    Clean sep (quoteJson s) := by
  have hinner := inner_escapeJson s
  have hopen : ∀ rest, scan .out ('"' :: rest) = scan .str rest := by
    simp [scan, Quote.step]
  unfold quoteJson
  refine ⟨?_, ?_⟩
  · rw [hopen, scan_append, hinner.closed]
    simp [scan, Quote.step]
  · intro before after hcut
    cases before with
    | nil =>
      rw [List.nil_append, List.cons.injEq] at hcut
      exact absurd hcut.1.symm hquote
    | cons b before =>
      rw [List.cons_append, List.cons.injEq] at hcut
      rw [← hcut.1, hopen]
      rcases List.append_eq_append_iff.mp hcut.2 with ⟨mid, _, hmid⟩ | ⟨mid, hmid, _⟩
      · -- The separator is the closing quote, or comes after it.
        cases mid with
        | nil =>
          rw [List.nil_append, List.cons.injEq] at hmid
          exact absurd hmid.1.symm hquote
        | cons m mid => simp at hmid
      · exact hinner.inside before mid hmid

/-- The texts that numbers are printed as. -/
structure NumberFormat where
  Printed : List Char → Prop
  digits : ∀ cs, Printed cs → ∀ c ∈ cs, c.isDigit = true ∨ c ∈ ['-', '+', '.', 'e']

/-- The texts of values, printed without blanks. -/
inductive JsonText (numbers : NumberFormat) : List Char → Prop where
  | null : JsonText numbers "null".toList
  | true : JsonText numbers "true".toList
  | false : JsonText numbers "false".toList
  | number {cs : List Char} (printed : numbers.Printed cs) : JsonText numbers cs
  | string (s : List Char) : JsonText numbers (quoteJson s)
  | array (items : List (List Char)) (texts : ∀ item ∈ items, JsonText numbers item) :
    JsonText numbers ('[' :: (join ',' items ++ [']']))
  | object (fields : List (List Char × List Char))
    (texts : ∀ field ∈ fields, JsonText numbers field.2) :
    JsonText numbers
      ('\x7b' :: (join ',' (fields.map fun (k, v) => quoteJson k ++ ':' :: v) ++ ['\x7d']))

/-- Parts put between characters that are plain. -/
theorem clean_join {sep : Char} (mid : Char) (hsep : mid ≠ sep) (hquote : mid ≠ '"')
    (hslash : mid ≠ '\\') {parts : List (List Char)} (h : ∀ part ∈ parts, Clean sep part) :
    Clean sep (join mid parts) := by
  induction parts with
  | nil => exact clean_nil sep
  | cons part parts ih =>
    have hpart := h part (by simp)
    have hparts := ih fun other hother => h other (by simp [hother])
    cases parts with
    | nil => rwa [join_singleton]
    | cons next parts =>
      rw [join_cons_cons]
      exact hpart.append ((clean_singleton hsep hquote hslash).append hparts)

theorem JsonText.clean {numbers : NumberFormat} {cs : List Char} (h : JsonText numbers cs) :
    Clean ';' cs := by
  have hsingle : ∀ c ∈ ['[', ']', '\x7b', '\x7d', ':'], Clean ';' [c] := by
    intro c hc
    apply clean_singleton <;> (rintro rfl; simp at hc)
  induction h with
  | null => exact clean_of_plain (by simp)
  | true => exact clean_of_plain (by simp)
  | false => exact clean_of_plain (by simp)
  | number printed =>
    apply clean_of_plain
    intro c hc
    rcases numbers.digits _ printed c hc with hdigit | hmark
    · refine ⟨?_, ?_, ?_⟩ <;> (rintro rfl; simp at hdigit)
    · refine ⟨?_, ?_, ?_⟩ <;> (rintro rfl; simp at hmark)
  | string s => exact clean_quoteJson (by decide) s
  | array items texts ih =>
    have hitems : Clean ';' (join ',' items) :=
      clean_join ',' (by decide) (by decide) (by decide) ih
    exact (hsingle '[' (by decide)).append (hitems.append (hsingle ']' (by decide)))
  | object fields texts ih =>
    have hfields : ∀ part ∈ fields.map fun (k, v) => quoteJson k ++ ':' :: v, Clean ';' part := by
      intro part hpart
      obtain ⟨field, hfield, rfl⟩ := List.mem_map.mp hpart
      exact (clean_quoteJson (by decide) field.1).append
        ((hsingle ':' (by decide)).append (ih field hfield))
    have hjoin := clean_join ',' (by decide) (by decide) (by decide) hfields
    exact (hsingle '\x7b' (by decide)).append (hjoin.append (hsingle '\x7d' (by decide)))

end ForwardProxy.Text
