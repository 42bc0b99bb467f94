/-
ForwardProxy.IdList.SchemaTheorems — a version tag identifies its file.

The tag is `fileId@creationTime`, or the bare creation time when there is
no file id. The decimal digits after the last `@` contain no `@`, so the
tag can be split again even if the file id contains one.
-/
import Mathlib.Data.List.Basic
import ForwardProxy.IdList.Schema

namespace ForwardProxy.IdList

theorem at_not_mem_digits (n : Nat) : '@' ∉ (toString n).toList := by
  intro h
  rw [Nat.toString_eq_repr, Nat.toList_repr] at h
  have hdigit := Nat.isDigit_of_mem_toDigits (by decide) (by decide) h
  simp at hdigit

theorem toString_nat_inj {a b : Nat} (h : toString a = toString b) : a = b := by
  have hdigits : Nat.toDigits 10 a = Nat.toDigits 10 b := by
    rw [← Nat.toList_repr, ← Nat.toList_repr, ← Nat.toString_eq_repr, ← Nat.toString_eq_repr, h]
  rw [← Nat.ofDigitChars_toDigits (b := 10) (n := a) (by decide) (by decide), hdigits,
    Nat.ofDigitChars_toDigits (by decide) (by decide)]

/-- A list can be split at the last occurrence of `x` in one way only. -/
theorem append_cons_inj_of_notMem {α : Type} {x : α} {a b a' b' : List α} (hb : x ∉ b)
    (hb' : x ∉ b') (h : a ++ x :: b = a' ++ x :: b') : a = a' ∧ b = b' := by
  rcases List.append_eq_append_iff.mp h with ⟨c, hc, hrest⟩ | ⟨c, hc, hrest⟩
  · cases c with
    | nil =>
      rw [List.nil_append, List.cons.injEq] at hrest
      exact ⟨by simpa using hc.symm, hrest.2⟩
    | cons y c =>
      rw [List.cons_append, List.cons.injEq] at hrest
      exact absurd (by rw [hrest.2]; simp) hb
  · cases c with
    | nil =>
      rw [List.nil_append, List.cons.injEq] at hrest
      exact ⟨by simpa using hc, hrest.2.symm⟩
    | cons y c =>
      rw [List.cons_append, List.cons.injEq] at hrest
      exact absurd (by rw [hrest.2]; simp) hb'

theorem versionTag_toList {md : IdListMetadata} (h : md.fileId ≠ "") :
    (versionTag md).toList = md.fileId.toList ++ '@' :: (toString md.creationTime).toList := by
  rw [versionTag, if_neg h]
  simp

/-- Two versions with one tag are the same file at the same time. -/
theorem versionTag_inj {a b : IdListMetadata} (h : versionTag a = versionTag b) :
    a.fileId = b.fileId ∧ a.creationTime = b.creationTime := by
  by_cases ha : a.fileId = ""
  · by_cases hb : b.fileId = ""
    · rw [versionTag, versionTag, if_pos ha, if_pos hb] at h
      exact ⟨ha.trans hb.symm, toString_nat_inj h⟩
    · have hmem := congrArg (fun s : String => '@' ∈ s.toList) h
      simp only [versionTag_toList hb] at hmem
      rw [versionTag, if_pos ha] at hmem
      exact absurd (hmem.mpr (by simp)) (at_not_mem_digits _)
  · by_cases hb : b.fileId = ""
    · have hmem := congrArg (fun s : String => '@' ∈ s.toList) h
      simp only [versionTag_toList ha] at hmem
      rw [versionTag, if_pos hb] at hmem
      exact absurd (hmem.mp (by simp)) (at_not_mem_digits _)
    · have hlist := congrArg String.toList h
      rw [versionTag_toList ha, versionTag_toList hb] at hlist
      obtain ⟨hfile, htime⟩ := append_cons_inj_of_notMem (at_not_mem_digits _)
        (at_not_mem_digits _) hlist
      exact ⟨String.toList_inj.mp hfile, toString_nat_inj (String.toList_inj.mp htime)⟩

theorem versionTag_ne_empty (md : IdListMetadata) : versionTag md ≠ "" := by
  intro h
  by_cases hf : md.fileId = ""
  · rw [versionTag, if_pos hf, Nat.toString_eq_repr] at h
    have hlist := congrArg String.toList h
    rw [Nat.toList_repr] at hlist
    exact Nat.toDigits_ne_nil hlist
  · have hlist := congrArg String.toList h
    rw [versionTag_toList hf] at hlist
    simp at hlist

end ForwardProxy.IdList
