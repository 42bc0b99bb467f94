/-
ForwardProxy.Effect.PartitionedDiff — moving one set to another, one part
at a time, with a cursor.

A set that is being moved from `old` to `new` element by element is at
every moment between the two: it keeps what both have and gains nothing
that neither has. That is membership in the unordered interval
`Set.uIcc old new`. The elements fall into numbered parts, and the cursor
says below which number the move is complete.
-/
import Mathlib.Order.ConditionallyCompleteLattice.Basic
import Mathlib.Order.Interval.Set.UnorderedInterval
import Mathlib.Data.Set.Lattice

namespace ForwardProxy.Effect

variable {α : Type} {old new s t : Set α}

theorem mem_uIcc_iff : s ∈ Set.uIcc old new ↔
    ∀ m, (m ∈ old → m ∈ new → m ∈ s) ∧ (m ∈ s → m ∈ old ∨ m ∈ new) := by
  constructor
  · intro h m
    exact ⟨fun ho hn => h.1 ⟨ho, hn⟩, fun hs => h.2 hs⟩
  · intro h
    exact ⟨fun m hm => (h m).1 hm.1 hm.2, fun m hm => (h m).2 hm⟩

/-- Adding elements that `new` has moves towards `new`. -/
theorem union_mem_uIcc (h : t ⊆ new) : s ∪ t ∈ Set.uIcc s new := by
  rw [mem_uIcc_iff]
  intro m
  refine ⟨fun hs _ => .inl hs, ?_⟩
  rintro (hs | ht)
  · exact .inl hs
  · exact .inr (h ht)

/-- Removing elements that `new` does not have moves towards `new`. -/
theorem sdiff_mem_uIcc (h : ∀ m ∈ t, m ∉ new) : s \ t ∈ Set.uIcc s new := by
  rw [mem_uIcc_iff]
  intro m
  exact ⟨fun hs hn => ⟨hs, fun ht => h m ht hn⟩, fun hs => .inl hs.1⟩

/-- `t` comes from `s` by moving elements of the part `p` towards `new`. -/
structure Within (part : α → Nat) (p : Nat) (new s t : Set α) : Prop where
  mem : t ∈ Set.uIcc s new
  kept : ∀ m, part m ≠ p → (m ∈ t ↔ m ∈ s)

namespace Within

variable {part : α → Nat} {p : Nat} {u : Set α}

theorem refl (s : Set α) : Within part p new s s := ⟨Set.left_mem_uIcc, fun _ _ => Iff.rfl⟩

theorem trans (h : Within part p new s t) (h' : Within part p new t u) : Within part p new s u :=
  ⟨Set.uIcc_subset_uIcc_right h.mem h'.mem, fun m hm => (h'.kept m hm).trans (h.kept m hm)⟩

/-- A move that stays on the way to a moved set. -/
theorem between (h : Within part p new s t) (hu : u ∈ Set.uIcc s t) : Within part p new s u := by
  refine ⟨Set.uIcc_subset_uIcc_left h.mem hu, fun m hm => ?_⟩
  have hkept := h.kept m hm
  rw [mem_uIcc_iff] at hu
  constructor
  · intro hmu
    exact ((hu m).2 hmu).elim (fun hs => hs) hkept.1
  · intro hms
    exact (hu m).1 hms (hkept.2 hms)

end Within

/-- `s` is on the way from `old` to `new`, and there already in the parts
below `cursor`. -/
structure DiffAt (part : α → Nat) (old new : Set α) (cursor : Nat) (s : Set α) : Prop where
  mem : s ∈ Set.uIcc old new
  done : ∀ m, part m < cursor → (m ∈ s ↔ m ∈ new)

namespace DiffAt

variable {part : α → Nat} {cursor : Nat}

theorem zero (h : s ∈ Set.uIcc old new) : DiffAt part old new 0 s :=
  ⟨h, fun _ hm => absurd hm (Nat.not_lt_zero _)⟩

/-- A move towards `new` loses nothing that was done. -/
theorem toward (h : DiffAt part old new cursor s) (ht : t ∈ Set.uIcc s new) :
    DiffAt part old new cursor t := by
  refine ⟨Set.uIcc_subset_uIcc_right h.mem ht, fun m hm => ?_⟩
  have hd := h.done m hm
  rw [mem_uIcc_iff] at ht
  constructor
  · intro hmt
    exact ((ht m).2 hmt).elim hd.1 (fun hn => hn)
  · intro hn
    exact (ht m).1 (hd.2 hn) hn

/-- A part that is complete is passed by the cursor. -/
theorem succ (h : DiffAt part old new cursor s)
    (hpart : ∀ m, part m = cursor → (m ∈ s ↔ m ∈ new)) :
    DiffAt part old new (cursor + 1) s := by
  refine ⟨h.mem, fun m hm => ?_⟩
  by_cases hlt : part m < cursor
  · exact h.done m hlt
  · exact hpart m (by omega)

/-- When the cursor has passed every part, the move is complete. -/
theorem eq_new (h : DiffAt part old new cursor s) (hall : ∀ m, part m < cursor) : s = new :=
  Set.ext fun m => h.done m (hall m)

end DiffAt

/-- The move was taken up at the part `start` with the set `s₀`: the parts
from there to the cursor are complete, and those below are as they were. -/
structure TakenUp (part : α → Nat) (old new s₀ : Set α) (start cursor : Nat) (s : Set α) :
    Prop where
  le : start ≤ cursor
  mem : s ∈ Set.uIcc old new
  kept : ∀ m, part m < start → (m ∈ s ↔ m ∈ s₀)
  done : ∀ m, start ≤ part m → part m < cursor → (m ∈ s ↔ m ∈ new)

namespace TakenUp

variable {part : α → Nat} {s₀ : Set α} {start cursor : Nat}

theorem start_self (h : s ∈ Set.uIcc old new) : TakenUp part old new s start start s :=
  ⟨Nat.le_refl _, h, fun _ _ => Iff.rfl, fun _ hle hlt => absurd hlt (Nat.not_lt.mpr hle)⟩

theorem within (h : TakenUp part old new s₀ start cursor s) (ht : Within part cursor new s t) :
    TakenUp part old new s₀ start cursor t := by
  refine ⟨h.le, Set.uIcc_subset_uIcc_right h.mem ht.mem, fun m hm => ?_, fun m hle hlt => ?_⟩
  · have hle := h.le
    exact (ht.kept m (by omega)).trans (h.kept m hm)
  · exact (ht.kept m (by omega)).trans (h.done m hle hlt)

theorem succ (h : TakenUp part old new s₀ start cursor s)
    (hpart : ∀ m, part m = cursor → (m ∈ s ↔ m ∈ new)) :
    TakenUp part old new s₀ start (cursor + 1) s := by
  refine ⟨Nat.le_succ_of_le h.le, h.mem, h.kept, fun m hle hlt => ?_⟩
  by_cases hlt' : part m < cursor
  · exact h.done m hle hlt'
  · exact hpart m (by omega)

/-- When the cursor has passed every part, only the parts below the start
can differ from `new`. -/
theorem eq_new_iff (h : TakenUp part old new s₀ start cursor s) (hall : ∀ m, part m < cursor) :
    s = new ↔ ∀ m, part m < start → (m ∈ s₀ ↔ m ∈ new) := by
  constructor
  · intro heq m hm
    rw [← h.kept m hm, heq]
  · intro hdone
    ext m
    by_cases hm : part m < start
    · exact (h.kept m hm).trans (hdone m hm)
    · exact h.done m (Nat.not_lt.mp hm) (hall m)

end TakenUp

end ForwardProxy.Effect
