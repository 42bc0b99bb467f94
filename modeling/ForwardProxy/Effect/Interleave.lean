/-
ForwardProxy.Effect.Interleave — programs that run side by side over one
store.

A `Pool` holds the store, what is left of every program, and the commands
answered so far with the program each came from, the latest first. One
step is one command of one program. A program that is never given another
turn has stopped, so a pool needs no step of its own for a crash.

A `guard` says which commands a run may send where. The guard of a theorem
is its condition on the interleaving; a run without condition has the
guard that is always true.

`Pool.invariant` is the rule for such runs. Each program follows a
protocol, and the invariant speaks of the phases, the store and the log.
It has to be carried over one allowed command of one program, with the
phases of all the others left as they are.

`Pool.amid` is the rule for one program of the pool. What is proved of it
amid an environment holds in every run in which the environment covers the
commands of all the others.
-/
import Mathlib.Logic.Function.Basic
import Mathlib.Logic.Relation
import ForwardProxy.Effect.Interference
import ForwardProxy.Effect.Protocol

namespace ForwardProxy.Effect

variable {C : Type} {R : C → Type} {ε S Φ ι ω : Type} {α : ι → Type}

structure Pool (C : Type) (R : C → Type) (ε S ι : Type) (α : ι → Type) where
  state : S
  threads : (i : ι) → Prog C R ε (α i)
  log : List (ι × C)

/-- The commands of one program, in the order it sent them. -/
def sentBy [DecidableEq ι] (i : ι) : List (ι × C) → List C
  | [] => []
  | (j, c) :: log => if j = i then sentBy i log ++ [c] else sentBy i log

theorem sentBy_self [DecidableEq ι] (i : ι) (c : C) (log : List (ι × C)) :
    sentBy i ((i, c) :: log) = sentBy i log ++ [c] := by
  simp [sentBy]

theorem sentBy_of_ne [DecidableEq ι] {i j : ι} (h : j ≠ i) (c : C) (log : List (ι × C)) :
    sentBy i ((j, c) :: log) = sentBy i log := by
  simp [sentBy, h]

theorem sentBy_eq_nil [DecidableEq ι] {i : ι} {log : List (ι × C)}
    (h : i ∉ log.map Prod.fst) : sentBy i log = [] := by
  induction log with
  | nil => rfl
  | cons e log ih =>
    obtain ⟨j, c⟩ := e
    simp only [List.map_cons, List.mem_cons, not_or] at h
    rw [sentBy_of_ne (Ne.symm h.1)]
    exact ih h.2

namespace Pool

variable [DecidableEq ι]

/-- One command of one program. -/
inductive Step (H : Handler C R S) (guard : List (ι × C) → ι → C → Bool) :
    Pool C R ε S ι α → Pool C R ε S ι α → Prop
  | turn {s s' : S} {threads : (i : ι) → Prog C R ε (α i)} {log : List (ι × C)} (i : ι) {c : C}
      {k : R c → Prog C R ε (α i)} {r : R c} (hthread : threads i = .call c k)
      (hguard : guard log i c = true) (hstep : H.step s c r s') :
      Step H guard ⟨s, threads, log⟩ ⟨s', Function.update threads i (k r), (i, c) :: log⟩

variable {H : Handler C R S} {guard : List (ι × C) → ι → C → Bool}

/-- The programs follow the protocol, each from the phase it has reached. -/
def Follow (δ : Protocol C R Φ) (Q : ι → Φ → Prop) (threads : (i : ι) → Prog C R ε (α i))
    (φ : ι → Φ) : Prop :=
  ∀ i, (threads i).Follows δ (Q i) (φ i)

/-- **The invariant rule**: what every allowed command of a program carries
over, with the others where they are, holds along every run. -/
theorem invariant {δ : Protocol C R Φ} {Q : ι → Φ → Prop}
    {I : (ι → Φ) → S → List (ι × C) → Prop} {s₀ : S} {progs : (i : ι) → Prog C R ε (α i)}
    {φ₀ : ι → Φ} (hfollow : Follow δ Q progs φ₀) (hinit : I φ₀ s₀ [])
    (hstep : ∀ φ s log i c r s', I φ s log → δ.allows (φ i) c → guard log i c = true →
      H.step s c r s' → I (Function.update φ i (δ.next (φ i) c r)) s' ((i, c) :: log))
    {pool : Pool C R ε S ι α} (hrun : Relation.ReflTransGen (Step H guard) ⟨s₀, progs, []⟩ pool) :
    ∃ φ, Follow δ Q pool.threads φ ∧ I φ pool.state pool.log := by
  induction hrun with
  | refl => exact ⟨φ₀, hfollow, hinit⟩
  | tail _ hlast ih =>
    obtain ⟨φ, hfollows, hI⟩ := ih
    cases hlast with
    | @turn s s' threads log i c k r hthread hguard hcmd =>
      have hthis : (Prog.call c k).Follows δ (Q i) (φ i) := hthread ▸ hfollows i
      refine ⟨_, ?_, hstep φ s log i c r s' hI hthis.1 hguard hcmd⟩
      intro j
      by_cases hj : j = i
      · subst hj
        simp only [Function.update_self]
        exact hthis.2 r
      · simp only [Function.update_of_ne hj]
        exact hfollows j

/-- What every command keeps, whatever program sends it. -/
theorem stateInvariant {I : S → Prop} {start pool : Pool C R ε S ι α} (hinit : I start.state)
    (hstep : ∀ s c r s', I s → H.step s c r s' → I s')
    (hrun : Relation.ReflTransGen (Step H guard) start pool) : I pool.state := by
  induction hrun with
  | refl => exact hinit
  | tail _ hlast ih =>
    cases hlast with
    | turn i hthread hguard hcmd => exact hstep _ _ _ _ ih hcmd

/-- **The rely rule**: a program has its specification amid the others, as
seen from the state its own last command has left. -/
theorem amid {P : ι → C → Prop} {env : S → S → Prop} {i : ι} {Q : α i → S → Prop}
    {X : S → Prop} {start pool : Pool C R ε S ι α} (hrefl : ∀ s, env s s)
    (htrans : ∀ s s' s'', env s s' → env s' s'' → env s s'')
    (hissues : ∀ j, (start.threads j).Issues (P j))
    (hothers : ∀ j, j ≠ i → ∀ c, P j c → ∀ s r s', H.step s c r s' → env s s')
    (hwp : Wp (H.amid env) (start.threads i) Q X start.state)
    (hrun : Relation.ReflTransGen (Step H guard) start pool) :
    (∀ j, (pool.threads j).Issues (P j)) ∧
      ∃ s, env s pool.state ∧ Wp (H.amid env) (pool.threads i) Q X s := by
  induction hrun with
  | refl => exact ⟨hissues, start.state, hrefl _, hwp⟩
  | tail _ hlast ih =>
    obtain ⟨hissued, s₁, henv, hwp₁⟩ := ih
    cases hlast with
    | @turn s s' threads log j c k r hthread hguard hcmd =>
      have hthis : (Prog.call c k).Issues (P j) := hthread ▸ hissued j
      refine ⟨?_, ?_⟩
      · intro j'
        by_cases hj : j' = j
        · subst hj
          simp only [Function.update_self]
          exact hthis.2 r
        · simp only [Function.update_of_ne hj]
          exact hissued j'
      · by_cases hj : i = j
        · subst hj
          refine ⟨s', hrefl s', ?_⟩
          simp only [Function.update_self]
          exact Wp.step (hthread ▸ hwp₁) ⟨s, henv, hcmd⟩
        · refine ⟨s₁, htrans _ _ _ henv (hothers j (Ne.symm hj) c hthis.1 s r s' hcmd), ?_⟩
          simp only [Function.update_of_ne hj]
          exact hwp₁

end Pool

/-! ## Computing a run -/

namespace Runner

variable [DecidableEq ι] {H : Handler C R S}

/-- Give the programs their turns in the order of the schedule. -/
def turns (X : Runner H ω) (guard : List (ι × C) → ι → C → Bool) :
    List ι → Pool C R ε S ι α → ω → Option (Pool C R ε S ι α × ω)
  | [], pool, w => some (pool, w)
  | i :: schedule, pool, w =>
    match pool.threads i with
    | .call c k =>
      if guard pool.log i c then
        match X.next pool.state c w with
        | some (r, s', w') =>
          turns X guard schedule ⟨s', Function.update pool.threads i (k r), (i, c) :: pool.log⟩ w'
        | none => none
      else none
    | _ => none

variable {guard : List (ι × C) → ι → C → Bool} {schedule : List ι} {i : ι}
  {pool pool' : Pool C R ε S ι α} {w w' : ω}

/-- The first turn is a step, and the others follow. -/
theorem turns_cons (X : Runner H ω) (h : X.turns guard (i :: schedule) pool w = some (pool', w')) :
    ∃ mid w₁, Pool.Step H guard pool mid ∧ X.turns guard schedule mid w₁ = some (pool', w') := by
  unfold turns at h
  split at h
  · rename_i c k hthread
    split at h
    · rename_i hguard
      split at h
      · rename_i r s' w₁ hnext
        exact ⟨_, w₁, .turn i hthread hguard (X.sound hnext), h⟩
      · simp at h
    · simp at h
  · simp at h

theorem turns_sound (X : Runner H ω) (h : X.turns guard schedule pool w = some (pool', w')) :
    Relation.ReflTransGen (Pool.Step H guard) pool pool' := by
  induction schedule generalizing pool w with
  | nil =>
    simp only [turns, Option.some.injEq, Prod.mk.injEq] at h
    rw [h.1]
  | cons i schedule ih =>
    obtain ⟨mid, w₁, hstep, hrest⟩ := X.turns_cons h
    exact .head hstep (ih hrest)

/-- A single turn is a step. -/
theorem turn_sound (X : Runner H ω) (h : X.turns guard [i] pool w = some (pool', w')) :
    Pool.Step H guard pool pool' := by
  obtain ⟨mid, w₁, hstep, hrest⟩ := X.turns_cons h
  simp only [turns, Option.some.injEq, Prod.mk.injEq] at hrest
  rw [← hrest.1]
  exact hstep

end Runner

end ForwardProxy.Effect
