/-
ForwardProxy.Order.IntervalChain — half-open intervals that leave no gap
between them.

The intervals are the elements of a list, with their ends given by two
functions; an interval may be empty. The list is gapless when every point
that lies after some beginning and before some end lies in one of them.

Two operations keep a list gapless: adding an interval that meets the
others on both sides (`Gapless.cons`), and taking away the one that ends
first (`Gapless.of_cons`). The second needs no condition on the rest: what
the taken one covered alone lies before every remaining beginning.
-/
import Mathlib.Order.Lattice
import Mathlib.Data.List.Basic

namespace ForwardProxy.IntervalChain

variable {ι α : Type} [LinearOrder α] (lo hi : ι → α)

def Covered (chain : List ι) (t : α) : Prop :=
  ∃ e ∈ chain, lo e ≤ t ∧ t < hi e

def Gapless (chain : List ι) : Prop :=
  ∀ t, (∃ e ∈ chain, lo e ≤ t) → (∃ e ∈ chain, t < hi e) → Covered lo hi chain t

/-- There is nothing to meet, or some interval ends no earlier than `e`
begins and some interval begins no later than `e` ends. -/
def Meets (chain : List ι) (e : ι) : Prop :=
  chain = [] ∨ (∃ r ∈ chain, lo e ≤ hi r) ∧ ∃ r ∈ chain, lo r ≤ hi e

variable {lo hi} {chain chain' : List ι} {e : ι}

theorem gapless_nil : Gapless lo hi [] := by
  intro t hbegun _
  obtain ⟨e, he, _⟩ := hbegun
  simp at he

theorem Covered.mono (hsub : ∀ r ∈ chain, r ∈ chain') {t : α} (h : Covered lo hi chain t) :
    Covered lo hi chain' t := by
  obtain ⟨r, hr, hlo, hhi⟩ := h
  exact ⟨r, hsub r hr, hlo, hhi⟩

/-- The order of the list does not matter. -/
theorem Gapless.of_mem_iff (h : Gapless lo hi chain) (hmem : ∀ r, r ∈ chain' ↔ r ∈ chain) :
    Gapless lo hi chain' := by
  intro t hbegun hopen
  simp only [hmem] at hbegun hopen
  exact (h t hbegun hopen).mono fun r hr => (hmem r).mpr hr

theorem Gapless.cons (h : Gapless lo hi chain) (hmeets : Meets lo hi chain e) :
    Gapless lo hi (e :: chain) := by
  intro t hbegun hopen
  by_cases hthis : lo e ≤ t ∧ t < hi e
  · exact ⟨e, by simp, hthis⟩
  · -- `e` leaves out `t`; then the chain has a beginning before `t` and an end after it
    have hchain : (∃ r ∈ chain, lo r ≤ t) ∧ ∃ r ∈ chain, t < hi r := by
      rcases hmeets with hnil | ⟨⟨r₁, hr₁, hend⟩, r₂, hr₂, hbegin⟩
      · subst hnil
        simp only [List.mem_singleton, exists_eq_left] at hbegun hopen
        exact absurd ⟨hbegun, hopen⟩ hthis
      · constructor
        · obtain ⟨r, hr, hlo⟩ := hbegun
          rcases List.mem_cons.mp hr with rfl | hr
          · exact ⟨r₂, hr₂, hbegin.trans (not_lt.mp fun hlt => hthis ⟨hlo, hlt⟩)⟩
          · exact ⟨r, hr, hlo⟩
        · obtain ⟨r, hr, hhi⟩ := hopen
          rcases List.mem_cons.mp hr with rfl | hr
          · exact ⟨r₁, hr₁, (not_le.mp fun hle => hthis ⟨hle, hhi⟩).trans_le hend⟩
          · exact ⟨r, hr, hhi⟩
    exact (h t hchain.1 hchain.2).mono fun r hr => List.mem_cons_of_mem e hr

theorem Gapless.of_cons (h : Gapless lo hi (e :: chain)) (hfirst : ∀ r ∈ chain, hi e ≤ hi r) :
    Gapless lo hi chain := by
  intro t hbegun hopen
  obtain ⟨r₀, hr₀, hlo₀⟩ := hbegun
  obtain ⟨r₁, hr₁, hhi₁⟩ := hopen
  obtain ⟨r, hr, hlo, hhi⟩ := h t ⟨r₀, by simp [hr₀], hlo₀⟩ ⟨r₁, by simp [hr₁], hhi₁⟩
  rcases List.mem_cons.mp hr with rfl | hr
  · -- `t` lies in the interval taken away: the one that has begun by then is still open
    exact ⟨r₀, hr₀, hlo₀, hhi.trans_le (hfirst r₀ hr₀)⟩
  · exact ⟨r, hr, hlo, hhi⟩

end ForwardProxy.IntervalChain
