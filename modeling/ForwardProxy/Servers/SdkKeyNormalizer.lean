/-
ForwardProxy.Servers.SdkKeyNormalizer — the redaction of SDK keys in log
texts (`sdk_key_normalizer.rs`).

The pattern is `(?:client|server|secret)-[A-Za-z0-9]+`. Its matches are
found from the left, do not overlap, and are as long as they can be, as
documented for the `regex` crate.
-/
import Mathlib.Data.List.TakeWhile
import ForwardProxy.Text.Replace

namespace ForwardProxy.Servers

open Text

def sdkKeyPrefixLength : Nat := 20

def truncationSuffix : List Char := "***".toList

def kinds : List (List Char) := ["client".toList, "server".toList, "secret".toList]

/-- A key is a kind, a dash and a body of letters and digits. -/
structure SdkKey (key : List Char) : Prop where
  form : ∃ kind ∈ kinds, ∃ body, body ≠ [] ∧ (∀ c ∈ body, c.isAlphanum = true) ∧
    key = kind ++ '-' :: body

/-- The match at the front of the text. -/
def sdkKeyAt (text : List Char) : Option (List Char) :=
  match kinds.find? fun kind => kind ++ ['-'] <+: text with
  | none => none
  | some kind =>
    let body := (text.drop (kind.length + 1)).takeWhile Char.isAlphanum
    if body = [] then none else some (kind ++ '-' :: body)

theorem sdkKeyAt_found {text key : List Char} (h : sdkKeyAt text = some key) :
    SdkKey key ∧ ∃ rest, text = key ++ rest ∧ ∀ c ∈ rest.head?, c.isAlphanum = false := by
  unfold sdkKeyAt at h
  split at h
  · cases h
  · rename_i kind hkind
    simp only [Option.ite_none_left_eq_some, Option.some.injEq] at h
    obtain ⟨hbody, rfl⟩ := h
    have hmem : kind ∈ kinds := List.mem_of_find?_eq_some hkind
    obtain ⟨tail, rfl⟩ : kind ++ ['-'] <+: text := by simpa using List.find?_some hkind
    have hdrop : (kind ++ ['-'] ++ tail).drop (kind.length + 1) = tail := by simp
    rw [hdrop] at hbody ⊢
    refine ⟨⟨kind, hmem, tail.takeWhile Char.isAlphanum, hbody, ?_, rfl⟩,
      tail.dropWhile Char.isAlphanum, ?_, ?_⟩
    · intro c hc
      exact List.mem_takeWhile_imp hc
    · simp [List.takeWhile_append_dropWhile]
    · intro c hc
      have hstop := List.head?_dropWhile_not Char.isAlphanum tail
      rw [Option.mem_def] at hc
      rw [hc] at hstop
      simpa using hstop

def sdkKeyPattern : Matcher Char where
  find := sdkKeyAt
  found := by
    intro text key h
    obtain ⟨⟨kind, _, body, _, _, rfl⟩, rest, rfl, _⟩ := sdkKeyAt_found h
    exact ⟨by simp, List.prefix_append _ _⟩

def sdkKeyPrefix (sdkKey : List Char) : List Char :=
  if sdkKey.length ≤ sdkKeyPrefixLength then sdkKey
  else sdkKey.take sdkKeyPrefixLength ++ truncationSuffix

/-- Truncates every SDK key in the text to its logged prefix. -/
def redactSdkKeys (text : String) : String :=
  String.ofList (sdkKeyPattern.replaceAll sdkKeyPrefix text.toList)

end ForwardProxy.Servers
