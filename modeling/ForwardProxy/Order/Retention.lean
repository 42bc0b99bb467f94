/-
ForwardProxy.Order.Retention — a list that keeps the largest of what has
arrived.

An arrival is put behind everything whose key is not greater than its own
(`insertAfter`), and the front is cut off while the list is too long
(`retain`). The list is then in the order of the keys and, among equal keys,
of the arrivals; what has been cut off comes before all of it (`Retains`).

The arrivals are told apart by their position: two of them may be equal.
-/
import Mathlib.Data.List.Perm.Basic
import Mathlib.Order.Lattice
import Mathlib.Tactic.Common

namespace ForwardProxy.Retention

variable {α β κ : Type} [LinearOrder κ]

/-! ## Insertion -/

/-- `a` behind everything whose key is not greater. -/
def insertAfter (key : α → κ) (a : α) : List α → List α
  | [] => [a]
  | x :: rest => if key a < key x then a :: x :: rest else x :: insertAfter key a rest

def retain (key : α → κ) (n : Nat) (kept : List α) (a : α) : List α :=
  let inserted := insertAfter key a kept
  inserted.drop (inserted.length - n)

variable {key : α → κ}

theorem insertAfter_perm (key : α → κ) (a : α) (xs : List α) :
    (insertAfter key a xs).Perm (a :: xs) := by
  induction xs with
  | nil => exact .refl _
  | cons x rest ih =>
    unfold insertAfter
    split
    · exact .refl _
    · exact (ih.cons x).trans (.swap a x rest)

theorem pairwise_le_insertAfter {a : α} {xs : List α}
    (h : xs.Pairwise fun x y => key x ≤ key y) :
    (insertAfter key a xs).Pairwise fun x y => key x ≤ key y := by
  induction xs with
  | nil => exact List.pairwise_singleton _ _
  | cons x rest ih =>
    obtain ⟨hfirst, hrest⟩ := List.pairwise_cons.mp h
    unfold insertAfter
    split
    · rename_i hlt
      have hall : ∀ y ∈ x :: rest, key a ≤ key y := by
        intro y hy
        rcases List.mem_cons.mp hy with rfl | hy
        · exact le_of_lt hlt
        · exact le_trans (le_of_lt hlt) (hfirst y hy)
      exact List.pairwise_cons.mpr ⟨hall, h⟩
    · rename_i hge
      have hall : ∀ y ∈ insertAfter key a rest, key x ≤ key y := by
        intro y hy
        rcases List.mem_cons.mp ((insertAfter_perm key a rest).mem_iff.mp hy) with rfl | hy
        · exact not_lt.mp hge
        · exact hfirst y hy
      exact List.pairwise_cons.mpr ⟨hall, ih hrest⟩

theorem map_insertAfter (f : β → α) (b : β) (ys : List β) :
    (insertAfter (fun y => key (f y)) b ys).map f = insertAfter key (f b) (ys.map f) := by
  induction ys with
  | nil => rfl
  | cons y rest ih =>
    simp only [insertAfter, List.map_cons]
    split
    · rfl
    · rw [List.map_cons, ih]

/-! ## The order of the arrivals -/

/-- `x` gives way to `y`: its key is smaller, or it has the same key and
arrived earlier. -/
def Before (key : α → κ) (x y : α × Nat) : Prop :=
  key x.1 < key y.1 ∨ key x.1 = key y.1 ∧ x.2 < y.2

theorem Before.irrefl (x : α × Nat) : ¬ Before key x x := by
  simp [Before]

theorem Before.trans {x y z : α × Nat} (hxy : Before key x y) (hyz : Before key y z) :
    Before key x z := by
  rcases hxy with hxy | ⟨hxy, hxy'⟩
  · rcases hyz with hyz | ⟨hyz, -⟩
    · exact .inl (lt_trans hxy hyz)
    · exact .inl (hyz ▸ hxy)
  · rcases hyz with hyz | ⟨hyz, hyz'⟩
    · exact .inl (hxy ▸ hyz)
    · exact .inr ⟨hxy.trans hyz, Nat.lt_trans hxy' hyz'⟩

theorem Before.key_le {x y : α × Nat} (h : Before key x y) : key x.1 ≤ key y.1 := by
  rcases h with h | ⟨h, -⟩
  · exact le_of_lt h
  · exact le_of_eq h

/-- The last arrival goes to its place in the order. -/
theorem pairwise_insertAfter {a : α} {m : Nat} {xs : List (α × Nat)}
    (hxs : xs.Pairwise (Before key)) (hm : ∀ x ∈ xs, x.2 < m) :
    (insertAfter (fun x : α × Nat => key x.1) (a, m) xs).Pairwise (Before key) := by
  induction xs with
  | nil => exact List.pairwise_singleton _ _
  | cons x rest ih =>
    obtain ⟨hfirst, hrest⟩ := List.pairwise_cons.mp hxs
    unfold insertAfter
    split
    · rename_i hlt
      refine List.pairwise_cons.mpr ⟨?_, hxs⟩
      intro y hy
      rcases List.mem_cons.mp hy with rfl | hy
      · exact .inl hlt
      · exact .inl (lt_of_lt_of_le hlt (hfirst y hy).key_le)
    · rename_i hle
      have hlast : Before key x (a, m) := by
        rcases lt_or_eq_of_le (not_lt.mp hle) with hlt | heq
        · exact .inl hlt
        · exact .inr ⟨heq, hm x (by simp)⟩
      refine List.pairwise_cons.mpr ⟨?_, ih hrest fun y hy => hm y (by simp [hy])⟩
      intro y hy
      rcases List.mem_cons.mp ((insertAfter_perm _ _ _).mem_iff.mp hy) with rfl | hy
      · exact hlast
      · exact hfirst y hy

/-! ## What is kept -/

/-- `kept` are `n` of the arrivals, or all of them if there are fewer, in
their order; all that are not kept come before them. -/
def Retains (key : α → κ) (n : Nat) (arrived kept : List α) : Prop :=
  ∃ keptAt dropped : List (α × Nat),
    kept = keptAt.map Prod.fst ∧
    (dropped ++ keptAt).Perm arrived.zipIdx ∧
    keptAt.length = min n arrived.length ∧
    keptAt.Pairwise (Before key) ∧
    ∀ d ∈ dropped, ∀ k ∈ keptAt, Before key d k

theorem retains_nil (key : α → κ) (n : Nat) : Retains key n [] [] :=
  ⟨[], [], rfl, .refl _, by simp, .nil, by simp⟩

theorem Retains.length_le {n : Nat} {arrived kept : List α} (h : Retains key n arrived kept) :
    kept.length ≤ n := by
  obtain ⟨keptAt, dropped, rfl, -, hlength, -⟩ := h
  rw [List.length_map, hlength]
  exact Nat.min_le_left _ _

theorem Retains.sorted {n : Nat} {arrived kept : List α} (h : Retains key n arrived kept) :
    kept.Pairwise fun x y => key x ≤ key y := by
  obtain ⟨keptAt, dropped, rfl, -, -, hpairwise, -⟩ := h
  exact List.pairwise_map.mpr (hpairwise.imp Before.key_le)

/-- The first is cut off. -/
theorem retains_of_tail {n : Nat} {arrived : List α} {first : α × Nat}
    {rest dropped : List (α × Nat)} (hperm : (dropped ++ first :: rest).Perm arrived.zipIdx)
    (hlength : rest.length = n) (hsorted : (first :: rest).Pairwise (Before key))
    (hbefore : ∀ d ∈ dropped, ∀ k ∈ rest, Before key d k) :
    Retains key n arrived (rest.map Prod.fst) := by
  obtain ⟨hfirst, hrest⟩ := List.pairwise_cons.mp hsorted
  have hcount : dropped.length + (n + 1) = arrived.length := by
    simpa [hlength] using hperm.length_eq
  refine ⟨rest, first :: dropped, rfl, List.perm_middle.symm.trans hperm, by omega, hrest, ?_⟩
  intro d hd k hk
  rcases List.mem_cons.mp hd with rfl | hd
  · exact hfirst k hk
  · exact hbefore d hd k hk

theorem zipIdx_concat (xs : List α) (a : α) : (xs ++ [a]).zipIdx = xs.zipIdx ++ [(a, xs.length)] := by
  simp [List.zipIdx_append]

theorem Retains.retain {n : Nat} {arrived kept : List α} (h : Retains key n arrived kept) (a : α) :
    Retains key n (arrived ++ [a]) (retain key n kept a) := by
  obtain ⟨keptAt, dropped, rfl, hperm, hlength, hpairwise, hbefore⟩ := h
  have htag : ∀ x ∈ keptAt, x.2 < arrived.length := by
    intro x hx
    have hmem := hperm.mem_iff.mp (List.mem_append_right dropped hx)
    simpa using (List.mem_zipIdx hmem).2.1
  have hcount : dropped.length + keptAt.length = arrived.length := by
    simpa using hperm.length_eq
  -- the new arrival in its place among the tagged ones
  generalize hnew : (a, arrived.length) = new
  generalize hinserted : insertAfter (fun x : α × Nat => key x.1) new keptAt = inserted
  have hmap : insertAfter key a (keptAt.map Prod.fst) = inserted.map Prod.fst := by
    rw [← hinserted, map_insertAfter Prod.fst, ← hnew]
  have hmem : inserted.Perm (new :: keptAt) := hinserted ▸ insertAfter_perm _ _ _
  have hsorted : inserted.Pairwise (Before key) := by
    rw [← hinserted, ← hnew]
    exact pairwise_insertAfter hpairwise htag
  have hall : (dropped ++ inserted).Perm (arrived ++ [a]).zipIdx := by
    rw [zipIdx_concat, hnew]
    exact (hmem.append_left dropped).trans <| List.perm_middle.trans <|
      (hperm.cons new).trans (List.perm_append_singleton _ _).symm
  have hlen : inserted.length = keptAt.length + 1 := hmem.length_eq
  simp only [Retention.retain, hmap, List.length_map, ← List.map_drop]
  by_cases hroom : keptAt.length < n
  · -- nothing has been dropped yet, and nothing is now
    have hnone : dropped = [] := List.eq_nil_of_length_eq_zero (by omega)
    subst hnone
    rw [show inserted.length - n = 0 by omega, List.drop_zero]
    exact ⟨inserted, [], rfl, hall, by simp; omega, hsorted, by simp⟩
  · have hfull : keptAt.length = n := by omega
    rw [show inserted.length - n = 1 by omega, List.drop_one]
    cases inserted with
    | nil => simp at hlen
    | cons first rest =>
      have hfirst := (List.pairwise_cons.mp hsorted).1
      refine retains_of_tail hall (by simpa [hfull] using hlen) hsorted ?_
      intro d hd k hk
      rcases List.mem_cons.mp (hmem.mem_iff.mp (List.mem_cons_of_mem first hk)) with hk' | hk'
      · -- the arrival is kept, so what is cut off was kept before and `d` came before it
        rcases List.mem_cons.mp (hmem.mem_iff.mp List.mem_cons_self) with hnew' | hold
        · exact absurd (hfirst k hk) (hnew' ▸ hk' ▸ Before.irrefl _)
        · exact (hbefore d hd first hold).trans (hfirst k hk)
      · exact hbefore d hd k hk'

/-- What is left after every arrival has been put in its place. -/
theorem Retains.foldl {n : Nat} {arrived kept : List α} (h : Retains key n arrived kept)
    (arrivals : List α) :
    Retains key n (arrived ++ arrivals) (arrivals.foldl (Retention.retain key n) kept) := by
  induction arrivals generalizing arrived kept with
  | nil => simpa using h
  | cons a rest ih => simpa using ih (h.retain a)

end ForwardProxy.Retention
