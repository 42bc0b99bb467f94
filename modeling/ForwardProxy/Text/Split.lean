/-
ForwardProxy.Text.Split — cutting a list at the first occurrence of a
separator.

The separators of a text are found again where they were written if the
part before does not contain the first element of the separator
(`splitOnce_append`).

Parts that a separator is put between can be read back if none of them
contains its first element (`intercalate_inj`). If they may contain it,
delimiters are still never found half inside one another
(`delimiters_cut`).
-/
import Mathlib.Data.List.Basic
import Mathlib.Data.List.Infix

namespace ForwardProxy.Text

variable {α : Type*} [DecidableEq α]

/-- The parts before and after the first occurrence of `sep`. -/
def splitOnce (sep : List α) : List α → Option (List α × List α)
  | [] => if sep = [] then some ([], []) else none
  | a :: as =>
    if sep <+: a :: as then some ([], (a :: as).drop sep.length)
    else (splitOnce sep as).map fun parts => (a :: parts.1, parts.2)

/-- A separator that is written after a part without its first element is
the first one. -/
theorem splitOnce_append {c : α} (sep : List α) {before : List α} (h : c ∉ before)
    (after : List α) :
    splitOnce (c :: sep) (before ++ (c :: sep ++ after)) = some (before, after) := by
  induction before with
  | nil => simp [splitOnce]
  | cons b before ih =>
    have hne : c ≠ b := fun he => h (by simp [he])
    have hhead : ¬ c :: sep <+: b :: (before ++ (c :: sep ++ after)) := by
      rw [List.cons_prefix_cons]
      exact fun hstarts => hne hstarts.1
    rw [List.cons_append, splitOnce, if_neg hhead, ih fun hmem => h (by simp [hmem])]
    rfl

theorem splitOnce_singleton {c : α} {before : List α} (h : c ∉ before) (after : List α) :
    splitOnce [c] (before ++ c :: after) = some (before, after) :=
  splitOnce_append [] h after

/-- What is split at a character is put together again with it, and it does
not stand in the part before. -/
theorem eq_of_splitOnce {c : α} : ∀ {s before after : List α},
    splitOnce [c] s = some (before, after) → s = before ++ c :: after ∧ c ∉ before
  | [], _, _, h => by simp [splitOnce] at h
  | a :: as, before, after, h => by
    rw [splitOnce] at h
    split at h
    · rename_i hstarts
      obtain rfl : c = a := (List.cons_prefix_cons.mp hstarts).1
      simp only [List.length_singleton, List.drop_one, List.tail_cons, Option.some.injEq,
        Prod.mk.injEq] at h
      obtain ⟨rfl, rfl⟩ := h
      simp
    · rename_i hstarts
      have hne : c ≠ a := fun he => hstarts (by simp [he])
      simp only [Option.map_eq_some_iff, Prod.mk.injEq] at h
      obtain ⟨parts, hparts, rfl, rfl⟩ := h
      obtain ⟨heq, hnot⟩ := eq_of_splitOnce (c := c) hparts
      exact ⟨by rw [List.cons_append, ← heq], by simp [hne, hnot]⟩

theorem not_mem_of_splitOnce {c : α} {s : List α} (h : splitOnce [c] s = none) : c ∉ s := by
  intro hc
  obtain ⟨before, after, rfl, hbefore⟩ := List.eq_append_cons_of_mem hc
  rw [splitOnce_singleton hbefore] at h
  cases h

theorem append_cons_inj {c : α} {before before' after after' : List α} (h : c ∉ before)
    (h' : c ∉ before') (heq : before ++ c :: after = before' ++ c :: after') :
    before = before' ∧ after = after' := by
  have hsplit := splitOnce_singleton h after
  rw [heq, splitOnce_singleton h' after'] at hsplit
  simp only [Option.some.injEq, Prod.mk.injEq] at hsplit
  exact ⟨hsplit.1.symm, hsplit.2.symm⟩

/-- Parts without the first element of the separator can be read back from
their concatenation. -/
theorem intercalate_inj {c : α} (sep : List α) (xs ys : List (List α))
    (hxs : ∀ x ∈ xs, c ∉ x) (hys : ∀ y ∈ ys, c ∉ y) (hne : xs ≠ []) (hne' : ys ≠ [])
    (h : (c :: sep).intercalate xs = (c :: sep).intercalate ys) : xs = ys := by
  induction xs generalizing ys with
  | nil => exact absurd rfl hne
  | cons x xs ih =>
    cases ys with
    | nil => exact absurd rfl hne'
    | cons y ys =>
      have hx := hxs x (by simp)
      have hy := hys y (by simp)
      cases xs with
      | nil =>
        cases ys with
        | nil => simpa using h
        | cons y' ys =>
          -- A separator on the right would stand inside `x`.
          rw [List.intercalate_singleton, List.intercalate_cons_cons] at h
          exact absurd (by rw [h]; simp) hx
      | cons x' xs =>
        cases ys with
        | nil =>
          rw [List.intercalate_singleton, List.intercalate_cons_cons] at h
          exact absurd (by rw [← h]; simp) hy
        | cons y' ys =>
          rw [List.intercalate_cons_cons, List.intercalate_cons_cons, List.append_assoc,
            List.append_assoc, List.cons_append, List.cons_append] at h
          obtain ⟨rfl, hrest⟩ := append_cons_inj hx hy h
          have htail := ih (y' :: ys) (fun z hz => hxs z (by simp [hz]))
            (fun z hz => hys z (by simp [hz])) (by simp) (by simp)
            (List.append_cancel_left hrest)
          rw [htail]

omit [DecidableEq α] in
/-- Two delimiters in one text, which both start with `c` and do not
contain it again, stand in the same place or one before the other. -/
theorem delimiters_cut {c : α} {d d' a a' b b' : List α} (hd : c ∉ d) (hd' : c ∉ d')
    (h : a ++ c :: (d ++ b) = a' ++ c :: (d' ++ b')) :
    (a = a' ∧ d ++ b = d' ++ b') ∨
      (∃ mid, a' = a ++ c :: (d ++ mid) ∧ b = mid ++ c :: (d' ++ b')) ∨
      ∃ mid, a = a' ++ c :: (d' ++ mid) ∧ b' = mid ++ c :: (d ++ b) := by
  have later : ∀ {d d' b b' more : List α}, c ∉ d →
      c :: (d ++ b) = more ++ c :: (d' ++ b') → (more = [] ∧ d ++ b = d' ++ b') ∨
        ∃ mid, more = c :: (d ++ mid) ∧ b = mid ++ c :: (d' ++ b') := by
    intro d d' b b' more hd h
    cases more with
    | nil =>
      rw [List.nil_append, List.cons.injEq] at h
      exact .inl ⟨rfl, h.2⟩
    | cons m more =>
      rw [List.cons_append, List.cons.injEq] at h
      obtain ⟨rfl, h⟩ := h
      rcases List.append_eq_append_iff.mp h with ⟨mid, rfl, hb⟩ | ⟨mid, hmid, hb⟩
      · exact .inr ⟨mid, rfl, hb⟩
      · cases mid with
        | nil =>
          rw [List.append_nil] at hmid
          exact .inr ⟨[], by rw [hmid, List.append_nil], hb.symm⟩
        | cons n mid =>
          rw [List.cons_append, List.cons.injEq] at hb
          exact absurd (by simp [hmid, hb.1]) hd
  rcases List.append_eq_append_iff.mp h with ⟨more, rfl, hrest⟩ | ⟨more, rfl, hrest⟩
  · rcases later hd hrest with ⟨rfl, heq⟩ | ⟨mid, rfl, hmid⟩
    · exact .inl ⟨by simp, heq⟩
    · exact .inr (.inl ⟨mid, rfl, hmid⟩)
  · rcases later hd' hrest with ⟨rfl, heq⟩ | ⟨mid, rfl, hmid⟩
    · exact .inl ⟨by simp, heq.symm⟩
    · exact .inr (.inr ⟨mid, rfl, hmid⟩)

end ForwardProxy.Text
