/-
ForwardProxy.Order.PairwiseChoice — choosing one element of a list by
pairwise comparison.

The list is visited once: the first element is the champion, and a later
one takes its place when it `beats` it. The comparison need not be
transitive. For an asymmetric one the champion is the same in every order
of the visit exactly when there is an element that beats all others
(`champion_perm_iff`).
-/
import Mathlib.Data.List.Perm.Basic

namespace ForwardProxy.PairwiseChoice

/-! ## The champion of a visit -/

section Champion

variable {α : Type} (beats : α → α → Bool)

/-- `beats a b`: the entrant `b` takes the place of `a`. -/
def challenge (champion : Option α) (entrant : α) : Option α :=
  match champion with
  | none => some entrant
  | some a => if beats a entrant then some entrant else some a

def champion (entrants : List α) : Option α := entrants.foldl (challenge beats) none

/-- An element that beats every other one. -/
def Undefeated (entrants : List α) (w : α) : Prop :=
  w ∈ entrants ∧ ∀ y ∈ entrants, y ≠ w → beats y w = true

variable {beats}

theorem challenge_some (a x : α) :
    challenge beats (some a) x = if beats a x then some x else some a := rfl

/-- The champion is the old one or one of the entrants. -/
theorem mem_of_foldl_challenge : ∀ {entrants : List α} {a b : α},
    entrants.foldl (challenge beats) (some a) = some b → b = a ∨ b ∈ entrants := by
  intro entrants
  induction entrants with
  | nil =>
    intro a b h
    exact .inl (Option.some.inj h).symm
  | cons x entrants ih =>
    intro a b h
    rw [List.foldl_cons, challenge_some] at h
    split at h
    · rcases ih h with rfl | hb
      · exact .inr (by simp)
      · exact .inr (by simp [hb])
    · rcases ih h with rfl | hb
      · exact .inl rfl
      · exact .inr (by simp [hb])

theorem foldl_challenge_isSome (entrants : List α) : ∀ a : α,
    ∃ b, entrants.foldl (challenge beats) (some a) = some b := by
  induction entrants with
  | nil =>
    intro a
    exact ⟨a, rfl⟩
  | cons x entrants ih =>
    intro a
    rw [List.foldl_cons, challenge_some]
    split
    · exact ih x
    · exact ih a

theorem champion_cons (a : α) (entrants : List α) :
    champion beats (a :: entrants) = entrants.foldl (challenge beats) (some a) := rfl

/-- An entrant that does not beat the champion leaves it, however often it
comes. -/
theorem foldl_challenge_of_not_beats {a w : α} (h : beats a w = false) :
    ∀ {entrants : List α}, (∀ x ∈ entrants, x = w) →
      entrants.foldl (challenge beats) (some a) = some a := by
  intro entrants
  induction entrants with
  | nil =>
    intro _
    rfl
  | cons x entrants ih =>
    intro hall
    obtain rfl := hall x (by simp)
    rw [List.foldl_cons]
    rw [challenge_some, if_neg (by simp [h])]
    exact ih fun y hy => hall y (by simp [hy])

/-! ## An undefeated element -/

/-- Once champion, an undefeated element stays. -/
theorem foldl_challenge_undefeated (hasymm : ∀ a b, beats a b = true → beats b a = false) {w : α} :
    ∀ {entrants : List α}, (∀ y ∈ entrants, y ≠ w → beats y w = true) →
      entrants.foldl (challenge beats) (some w) = some w := by
  intro entrants
  induction entrants with
  | nil =>
    intro _
    rfl
  | cons x entrants ih =>
    intro hall
    rw [List.foldl_cons]
    have hstay : challenge beats (some w) x = some w := by
      by_cases hx : x = w
      · simp [challenge, hx]
      · simp [challenge, hasymm x w (hall x (by simp) hx)]
    rw [hstay]
    exact ih fun y hy => hall y (by simp [hy])

/-- Whoever is champion when it comes, an undefeated element takes over. -/
theorem foldl_challenge_of_undefeated (hasymm : ∀ a b, beats a b = true → beats b a = false)
    {w : α} : ∀ {entrants : List α} {a : α}, Undefeated beats entrants w →
      (a ≠ w → beats a w = true) → entrants.foldl (challenge beats) (some a) = some w := by
  intro entrants
  induction entrants with
  | nil =>
    intro a h _
    simp [Undefeated] at h
  | cons x entrants ih =>
    intro a h ha
    have hrest : ∀ y ∈ entrants, y ≠ w → beats y w = true := fun y hy => h.2 y (by simp [hy])
    rw [List.foldl_cons]
    by_cases hx : x = w
    · subst hx
      have htake : challenge beats (some a) x = some x := by
        by_cases hax : a = x
        · simp [challenge, hax]
        · simp [challenge, ha hax]
      rw [htake]
      exact foldl_challenge_undefeated hasymm hrest
    · have hw : w ∈ entrants := by
        rcases List.mem_cons.mp h.1 with hw | hw
        · exact absurd hw.symm hx
        · exact hw
      rw [challenge_some]
      split
      · exact ih ⟨hw, hrest⟩ (h.2 x (by simp))
      · exact ih ⟨hw, hrest⟩ ha

theorem champion_of_undefeated (hasymm : ∀ a b, beats a b = true → beats b a = false)
    {entrants : List α} {w : α} (h : Undefeated beats entrants w) :
    champion beats entrants = some w := by
  cases entrants with
  | nil => simp [Undefeated] at h
  | cons x entrants =>
    rw [champion_cons]
    have hx := h.2 x (by simp)
    by_cases hw : w ∈ entrants
    · exact foldl_challenge_of_undefeated hasymm ⟨hw, fun y hy => h.2 y (by simp [hy])⟩ hx
    · have hwx : w = x := by
        rcases List.mem_cons.mp h.1 with hwx | hwx
        · exact hwx
        · exact absurd hwx hw
      subst hwx
      exact foldl_challenge_undefeated hasymm fun y hy => h.2 y (by simp [hy])

theorem Undefeated.perm {entrants entrants' : List α} {w : α} (hperm : entrants'.Perm entrants)
    (h : Undefeated beats entrants w) : Undefeated beats entrants' w :=
  ⟨hperm.mem_iff.mpr h.1, fun y hy => h.2 y (hperm.mem_iff.mp hy)⟩

/-! ## Independence of the order -/

/-- The order that shows that `y` is not beaten by `w`: `y` comes first,
then `w` as often as it occurs, then the rest. -/
theorem exists_perm_champion_ne [DecidableEq α] {entrants : List α} {y w : α} (hy : y ∈ entrants)
    (hne : y ≠ w) (h : beats y w = false) :
    ∃ entrants', entrants'.Perm entrants ∧ champion beats entrants' ≠ some w := by
  have hothers : y :: ((entrants.erase y).filter (· = w) ++ (entrants.erase y).filter (¬ · = w))
      |>.Perm entrants := by
    have hsplit := List.filter_append_perm (fun x => decide (x = w)) (entrants.erase y)
    refine ((List.Perm.cons y ?_).trans (List.perm_cons_erase hy).symm)
    simpa using hsplit
  refine ⟨_, hothers, ?_⟩
  rw [champion_cons, List.foldl_append]
  rw [foldl_challenge_of_not_beats h fun x hx => by simpa using (List.mem_filter.mp hx).2]
  intro hw
  rcases mem_of_foldl_challenge hw with hw | hw
  · exact hne hw.symm
  · simpa using (List.mem_filter.mp hw).2

/-- **The champion does not depend on the order exactly when some element
beats all others.** -/
theorem champion_perm_iff [DecidableEq α]
    (hasymm : ∀ a b, beats a b = true → beats b a = false) (entrants : List α) :
    (∀ entrants' : List α, entrants'.Perm entrants →
        champion beats entrants' = champion beats entrants) ↔
      entrants = [] ∨ ∃ w, Undefeated beats entrants w := by
  constructor
  · intro hsame
    cases entrants with
    | nil => exact .inl rfl
    | cons x entrants =>
      obtain ⟨w, hw⟩ := @foldl_challenge_isSome α beats entrants x
      have hchampion : champion beats (x :: entrants) = some w := hw
      refine .inr ⟨w, ?_, ?_⟩
      · rcases mem_of_foldl_challenge hw with rfl | hw
        · simp
        · simp [hw]
      · intro y hy hne
        by_contra hbeats
        obtain ⟨entrants', hperm, hother⟩ :=
          exists_perm_champion_ne hy hne (by simpa using hbeats)
        exact hother ((hsame entrants' hperm).trans hchampion)
  · intro h entrants' hperm
    rcases h with rfl | ⟨w, hw⟩
    · rw [List.perm_nil.mp hperm]
    · rw [champion_of_undefeated hasymm hw, champion_of_undefeated hasymm (hw.perm hperm)]

end Champion

/-! ## Entrants behind keys -/

variable {α κ : Type}

/-- Every order of the entrants comes from an order of the keys. -/
theorem exists_perm_filterMap (entry : κ → Option α) (keys : List κ) : ∀ {entrants : List α},
    entrants.Perm (keys.filterMap entry) →
      ∃ keys' : List κ, keys'.Perm keys ∧ keys'.filterMap entry = entrants := by
  induction keys with
  | nil =>
    intro entrants h
    exact ⟨[], .refl _, (List.perm_nil.mp h).symm⟩
  | cons k keys ih =>
    intro entrants h
    cases hk : entry k with
    | none =>
      rw [List.filterMap_cons_none hk] at h
      obtain ⟨keys', hperm, heq⟩ := ih h
      exact ⟨k :: keys', hperm.cons k, by rw [List.filterMap_cons_none hk, heq]⟩
    | some a =>
      rw [List.filterMap_cons_some hk] at h
      have ha : a ∈ entrants := h.mem_iff.mpr (by simp)
      obtain ⟨s, t, rfl⟩ := List.append_of_mem ha
      have hrest : (s ++ t).Perm (keys.filterMap entry) :=
        (List.perm_middle.symm.trans h).cons_inv
      obtain ⟨keys', hperm, heq⟩ := ih hrest
      obtain ⟨k₁, k₂, rfl, rfl, rfl⟩ := List.filterMap_eq_append_iff.mp heq
      refine ⟨k₁ ++ k :: k₂, (List.perm_middle).trans (hperm.cons k), ?_⟩
      rw [List.filterMap_append, List.filterMap_cons_some hk]

end ForwardProxy.PairwiseChoice
